/-
# The admissible ordering of literals is strict

What the ordering reads of a literal is its standing: of an equation the multiset of its
sides, each taken twice if the equation is denied, and of any other literal the atom and
the polarity. Equations stand below all other literals. Among themselves they compare as
multisets, which two denied equations do just as well without the doubling, and an asserted
and a denied one when looked at from the other side. Other literals compare by their atoms,
and then the denied one is greater.

Standings are compared strictly since spellings are. Two well-formed literals have the same
standing when they have the same polarity and the same atom up to swapping the sides of an
equation.
-/
import SaturationCore.Proofs.Order.DecisionTree
import SaturationCore.Proofs.Order.KnuthBendix

namespace SaturationCore

open TermOrdering

/-! ## Equations -/

/-- The sides of an equation, each taken twice if the equation is denied. -/
def sidesTaken {α : Type} : Bool → α × α → Multiset α
  | true, s => {s.1, s.2}
  | false, s => {s.1, s.1, s.2, s.2}

theorem sidesTaken_false {α : Type} (s : α × α) :
    sidesTaken false s = sidesTaken true s + sidesTaken true s := by
  simp [sidesTaken, Multiset.insert_eq_cons]

/-- Two pairs have the same elements when they are equal up to swapping. -/
theorem pair_eq_pair_iff {α : Type} {x y z w : α} :
    ({x, y} : Multiset α) = {z, w} ↔ x = z ∧ y = w ∨ x = w ∧ y = z := by
  have cancel {x y z : α} : ({x, y} : Multiset α) = {x, z} ↔ y = z :=
    (Multiset.cons_inj_right x).trans Multiset.singleton_inj
  constructor
  · intro same
    have mem : x ∈ ({z, w} : Multiset α) := same ▸ Multiset.mem_cons_self x {y}
    simp only [Multiset.insert_eq_cons, Multiset.mem_cons, Multiset.mem_singleton] at mem
    obtain rfl | rfl := mem
    · exact .inl ⟨rfl, cancel.1 same⟩
    · rw [Multiset.pair_comm z] at same
      exact .inr ⟨rfl, cancel.1 same⟩
  · rintro (⟨rfl, rfl⟩ | ⟨rfl, rfl⟩)
    · rfl
    · exact Multiset.pair_comm x y

theorem add_self_eq_add_self_iff {α : Type} [DecidableEq α] {M N : Multiset α} :
    M + M = N + N ↔ M = N := by
  constructor
  · intro same
    ext x
    have count := congrArg (Multiset.count x) same
    rw [Multiset.count_add, Multiset.count_add] at count
    omega
  · rintro rfl
    rfl

/-- The sides that are taken tell the polarity, and the sides up to swapping. -/
theorem sidesTaken_eq_iff {α : Type} [DecidableEq α] {p q : Bool} {s t : α × α} :
    sidesTaken p s = sidesTaken q t ↔ p = q ∧ (s = t ∨ s = t.swap) := by
  have asserted : sidesTaken true s = sidesTaken true t ↔ s = t ∨ s = t.swap := by
    rw [sidesTaken, sidesTaken, pair_eq_pair_iff, Prod.ext_iff, Prod.ext_iff]
    rfl
  have apart (s t : α × α) : sidesTaken true s ≠ sidesTaken false t := by
    intro same
    cases congrArg Multiset.card same
  cases p with
  | true =>
      cases q with
      | true => simp [asserted]
      | false => simp [apart]
  | false =>
      cases q with
      | true => simp [(apart t s).symm]
      | false => simp [sidesTaken_false, add_self_eq_add_self_iff, asserted]

namespace Comparison

variable {α β : Type} [DecidableEq β] {cmp : Comparison β} {ask : α → α → Checked TermOrdering}
  {view : α → β}

/-- Comparing equations comes to comparing the multisets of what is seen of their sides. -/
theorem Acyclic.yields_compareEquations (acyclic : cmp.Acyclic)
    (answered : ∀ x y, Yields (ask x y) (cmp (view x) (view y))) (p q : Bool) (s t : α × α) :
    Yields (compareEquations ask p s q t)
      (cmp.extension (sidesTaken p (s.map view view)) (sidesTaken q (t.map view view))) := by
  have sides (s t : α × α) (i j : Side) :
      Yields (ask (i.of s) (j.of t)) (cmp (i.of (s.map view view)) (j.of (t.map view view))) := by
    cases i <;> cases j <;> exact answered _ _
  have asserted := DecisionTree.run_yields (sides s t) DecisionTree.equations
  rw [acyclic.runListing_equations] at asserted
  have denied (s t : α × α) := DecisionTree.run_yields (sides s t) DecisionTree.deniedWithAsserted
  simp only [acyclic.runListing_deniedWithAsserted] at denied
  cases p with
  | true =>
      cases q with
      | true => exact asserted
      | false =>
          rw [← acyclic.flip_extension]
          exact (denied t s).bind (.ok _)
  | false =>
      cases q with
      | true => exact denied s t
      | false =>
          rw [sidesTaken_false, sidesTaken_false, extension_double]
          exact asserted

end Comparison

/-! ## Standings -/

theorem flip_breakTie (o : TermOrdering) (p q : Bool) :
    (breakTie o p q).flip = breakTie o.flip q p := by
  cases o <;> cases p <;> cases q <;> rfl

theorem breakTie_eq_equivalent_iff {o : TermOrdering} {p q : Bool} :
    breakTie o p q = equivalent ↔ o = equivalent ∧ p = q := by
  cases o <;> cases p <;> cases q <;> decide

theorem breakTie_eq_greater_iff {o : TermOrdering} {p q : Bool} :
    breakTie o p q = greater ↔ o = greater ∨ o = equivalent ∧ p = false ∧ q = true := by
  cases o <;> cases p <;> cases q <;> decide

/-- What the ordering reads of a literal. -/
inductive Standing (α : Type) where
  /-- An equation with its sides. -/
  | equation (sides : Multiset α)
  /-- A literal over another predicate. -/
  | other (atom : α) (polarity : Bool)

namespace Standing

variable {α : Type} [DecidableEq α] {cmp : Comparison α}

/-- Compare standings, given a way to compare what atoms and sides are. -/
def compare (cmp : Comparison α) : Comparison (Standing α)
  | equation M, equation N => cmp.extension M N
  | equation _, other _ _ => smaller
  | other _ _, equation _ => greater
  | other a p, other b q => breakTie (cmp a b) p q

/-- Standings are compared strictly if atoms and sides are. -/
theorem strict_compare (strict : cmp.Strict) : (compare cmp).Strict where
  flip_eq
    | equation M, equation N => strict.extension.flip_eq M N
    | equation _, other _ _ => rfl
    | other _ _, equation _ => rfl
    | other a p, other b q => by rw [compare, flip_breakTie, strict.flip_eq, compare]
  equivalent_iff
    | equation M, equation N => by
        rw [compare, Comparison.extension_eq_equivalent_iff, equation.injEq]
    | equation _, other _ _ => by simp [compare]
    | other _ _, equation _ => by simp [compare]
    | other a p, other b q => by
        rw [compare, breakTie_eq_equivalent_iff, strict.equivalent_iff, other.injEq]
  trans := by
    intro s t u first second
    cases s with
    | equation M =>
        cases t with
        | other b q => cases first
        | equation N =>
            cases u with
            | other c r => cases second
            | equation P => exact strict.extension.trans M N P first second
    | other a p =>
        cases u with
        | equation P => rfl
        | other c r =>
            cases t with
            | equation N => cases second
            | other b q =>
                rw [compare, breakTie_eq_greater_iff, strict.equivalent_iff] at *
                obtain above | ⟨rfl, rfl, rfl⟩ := first
                · obtain above' | ⟨rfl, -, -⟩ := second
                  · exact .inl (strict.trans a b c above above')
                  · exact .inl above
                · obtain above' | ⟨-, ⟨⟩, -⟩ := second
                  exact .inl above'

end Standing

/-! ## Literals -/

namespace Literal

variable {σ : Signature} {a b l : Literal}

/-- A literal over a well-formed atom. -/
structure WellFormed (σ : Signature) (l : Literal) : Prop where
  isAtom : l.atom.isAtom = true
  atom : l.atom.WellFormed σ

instance (σ : Signature) (l : Literal) : Decidable (l.WellFormed σ) :=
  decidable_of_iff (l.atom.isAtom = true ∧ l.atom.WellFormed σ)
    ⟨fun ⟨isAtom, atom⟩ => ⟨isAtom, atom⟩, fun ⟨isAtom, atom⟩ => ⟨isAtom, atom⟩⟩

theorem WellFormed.exists_atom (wf : l.WellFormed σ) :
    ∃ f args, l.atom = .app .predicate f args := by
  have isAtom := wf.isAtom
  unfold Term.isAtom at isAtom
  split at isAtom
  · next f args atom => exact ⟨f, args, atom⟩
  · cases isAtom

/-- The literals have the same polarity and the same atom up to swapping the sides of an
equation. -/
def Alike (a b : Literal) : Prop :=
  a.polarity = b.polarity ∧
    (a.atom = b.atom ∨ ∃ s t, a.atom = .equality s t ∧ b.atom = .equality t s)

theorem alike_comm : a.Alike b ↔ b.Alike a := by
  have swapped : (∃ s t, a.atom = .equality s t ∧ b.atom = .equality t s) ↔
      ∃ s t, b.atom = .equality s t ∧ a.atom = .equality t s := by
    constructor <;> exact fun ⟨s, t, first, second⟩ => ⟨t, s, second, first⟩
  rw [Alike, Alike, swapped, @eq_comm Bool, @eq_comm Term]

theorem Alike.refl (l : Literal) : l.Alike l :=
  ⟨rfl, .inl rfl⟩

theorem Alike.symm (alike : a.Alike b) : b.Alike a :=
  alike_comm.1 alike

theorem Alike.trans (first : a.Alike b) (second : b.Alike l) : a.Alike l := by
  obtain ⟨polarity, same | ⟨s, t, atom, atom'⟩⟩ := first
  · rwa [Alike, polarity, same]
  · refine ⟨polarity.trans second.1, ?_⟩
    rcases second.2 with same | ⟨s', t', atom'', back⟩
    · exact .inr ⟨s, t, atom, same ▸ atom'⟩
    · cases atom'.symm.trans atom''
      exact .inl (atom.trans back.symm)

theorem alike_equation_iff {s t s' t' : Term} {p q : Bool} :
    (Literal.mk (.equality s t) p).Alike ⟨.equality s' t', q⟩ ↔
      p = q ∧ (s = s' ∧ t = t' ∨ s = t' ∧ t = s') := by
  have equal {s t s' t' : Term} : Term.equality s t = .equality s' t' ↔ s = s' ∧ t = t' := by
    simp [Term.equality]
  simp only [Alike, equal]
  constructor
  · rintro ⟨rfl, same | ⟨_, _, ⟨rfl, rfl⟩, rfl, rfl⟩⟩
    · exact ⟨rfl, .inl same⟩
    · exact ⟨rfl, .inr ⟨rfl, rfl⟩⟩
  · rintro ⟨rfl, same | ⟨rfl, rfl⟩⟩
    · exact ⟨rfl, .inl same⟩
    · exact ⟨rfl, .inr ⟨s, t, ⟨rfl, rfl⟩, rfl, rfl⟩⟩

/-- A literal that is no equation is like itself only. -/
theorem alike_iff_of_other {f : Symbol} {args : List Term} {p : Bool}
    (other : f.isEquality = false) : (Literal.mk (.app .predicate f args) p).Alike b ↔
      p = b.polarity ∧ .app .predicate f args = b.atom := by
  constructor
  · rintro ⟨same, equal | ⟨s, t, equation, -⟩⟩
    · exact ⟨same, equal⟩
    · cases equation
      cases other
  · rintro ⟨same, equal⟩
    exact ⟨same, .inl equal⟩

/-- A literal is an equation of two terms or is over another predicate. -/
inductive Shape (σ : Signature) : Literal → Prop where
  | equation {s t : Term} (polarity : Bool) :
      s.WellFormed σ → t.WellFormed σ → Shape σ ⟨.equality s t, polarity⟩
  | other {p : Symbol} {args : List Term} (polarity : Bool) :
      p.isEquality = false → (Term.app .predicate p args).WellFormed σ →
      Shape σ ⟨.app .predicate p args, polarity⟩

/-- Equality is the only symbol of its identifier, so an equation has two sides. -/
theorem WellFormed.shape (grown : σ.Grown) (wf : l.WellFormed σ) : l.Shape σ := by
  obtain ⟨atom, polarity⟩ := l
  obtain ⟨isAtom, wf⟩ := wf
  cases wf with
  | var v => cases isAtom
  | abstraction body => cases isAtom
  | @app role p args fit len inner =>
      cases role with
      | predicate =>
          cases equal : p.isEquality with
          | false => exact .other polarity equal (.app fit len inner)
          | true =>
              have same : p = Symbol.equality :=
                fit.2.eq_of_id_eq grown.declares_equality (beq_iff_eq.1 equal)
              subst same
              obtain ⟨s, t, rfl⟩ := List.length_eq_two.1 len
              rw [List.forall_mem_cons, List.forall_mem_singleton] at inner
              exact .equation polarity inner.1 inner.2
      | _ => cases isAtom

/-- The standing of a literal. -/
def standing (l : Literal) : Standing (List Head) :=
  match l.isEquality, l.args with
  | true, [s, t] => .equation (sidesTaken l.polarity (s.spelling, t.spelling))
  | _, _ => .other l.atom.spelling l.polarity

theorem standing_equation (s t : Term) (polarity : Bool) :
    (Literal.mk (.equality s t) polarity).standing =
      .equation (sidesTaken polarity (s.spelling, t.spelling)) := rfl

theorem standing_other {p : Symbol} (other : p.isEquality = false) (args : List Term)
    (polarity : Bool) : (Literal.mk (.app .predicate p args) polarity).standing =
      .other (Term.app .predicate p args).spelling polarity := by
  simp [standing, isEquality, predicate?, other]

/-- Well-formed literals have one standing when they are alike. -/
theorem standing_eq_iff (shapeA : a.Shape σ) (shapeB : b.Shape σ) :
    a.standing = b.standing ↔ a.Alike b := by
  cases shapeA with
  | @equation s t p wfS wfT =>
      cases shapeB with
      | @equation s' t' q wfS' wfT' =>
          rw [standing_equation, standing_equation, Standing.equation.injEq, sidesTaken_eq_iff,
            alike_equation_iff, Prod.swap_prod_mk, Prod.mk.injEq, Prod.mk.injEq,
            wfS.spelling_eq_iff wfS', wfT.spelling_eq_iff wfT', wfS.spelling_eq_iff wfT',
            wfT.spelling_eq_iff wfS']
      | @other g args q other wf =>
          rw [standing_equation, standing_other other, alike_comm, alike_iff_of_other other]
          refine iff_of_false nofun ?_
          rintro ⟨-, equation⟩
          cases equation
          cases other
  | @other f args p other wf =>
      rw [standing_other other, alike_iff_of_other other]
      cases shapeB with
      | @equation s t q wfS wfT =>
          rw [standing_equation]
          refine iff_of_false nofun ?_
          rintro ⟨-, equation⟩
          cases equation
          cases other
      | @other g args' q other' wf' =>
          rw [standing_other other', Standing.other.injEq, wf.spelling_eq_iff wf', and_comm]

end Literal

namespace KnuthBendix

variable {k : KnuthBendix} {σ : Signature} {a b c : Literal}

/-- Comparing literals comes to comparing their standings. -/
theorem yields_compareLiterals (shapeA : a.Shape σ) (shapeB : b.Shape σ) :
    Yields (k.compareLiterals a b) (Standing.compare k.outcome a.standing b.standing) := by
  have root : Symbol.equality.isEquality = true := rfl
  cases shapeA with
  | @equation s t p wfS wfT =>
      cases shapeB with
      | @equation s' t' q wfS' wfT' =>
          exact k.outcome_strict.acyclic.yields_compareEquations k.yields_compare p q (s, t)
            (s', t')
      | @other g args' q other' wf' =>
          rw [Literal.standing_equation, Literal.standing_other other', compareLiterals]
          simp only [Literal.predicate, Literal.predicate?, Term.equality, bind, Except.bind, root,
            other']
          exact .ok smaller
  | @other f args p other wf =>
      cases shapeB with
      | @equation s' t' q wfS' wfT' =>
          rw [Literal.standing_other other, Literal.standing_equation, compareLiterals]
          simp only [Literal.predicate, Literal.predicate?, Term.equality, bind, Except.bind, root,
            other]
          exact .ok greater
      | @other g args' q other' wf' =>
          rw [Literal.standing_other other, Literal.standing_other other', compareLiterals]
          simp only [Literal.predicate, Literal.predicate?, bind, Except.bind, other, other']
          exact (k.yields_compare _ _).bind (.ok _)

/-- Whatever the configuration, the ordering of literals over well-formed atoms answers unless a
weight leaves its range. It then answers alike from both sides and calls literals equivalent that
differ at most in the order of the sides of an equation. What is greater than a greater literal is
greater itself, and what is equivalent to a literal compares with others as that literal. -/
theorem compareLiterals_strict (grown : σ.Grown) (wfA : a.WellFormed σ) (wfB : b.WellFormed σ)
    (wfC : c.WellFormed σ) (ab : k.compareLiterals a b ≠ .error .overflow)
    (ba : k.compareLiterals b a ≠ .error .overflow) (bc : k.compareLiterals b c ≠ .error .overflow)
    (ac : k.compareLiterals a c ≠ .error .overflow) :
    ∃ first second outer : TermOrdering, k.compareLiterals a b = .ok first ∧
      k.compareLiterals b a = .ok first.flip ∧ k.compareLiterals b c = .ok second ∧
      k.compareLiterals a c = .ok outer ∧ (first = equivalent ↔ a.Alike b) ∧
      (first = greater → second = greater → outer = greater) ∧
      (first = equivalent → outer = second) := by
  have shapeA := wfA.shape grown
  have shapeB := wfB.shape grown
  have shapeC := wfC.shape grown
  have strict := Standing.strict_compare k.outcome_strict
  refine ⟨_, _, _, (yields_compareLiterals shapeA shapeB).eq_ok ab, ?_,
    (yields_compareLiterals shapeB shapeC).eq_ok bc, (yields_compareLiterals shapeA shapeC).eq_ok ac,
    ?_, strict.trans _ _ _, ?_⟩
  · rw [strict.flip_eq]
    exact (yields_compareLiterals shapeB shapeA).eq_ok ba
  · rw [strict.equivalent_iff]
    exact Literal.standing_eq_iff shapeA shapeB
  · rw [strict.equivalent_iff]
    intro same
    rw [same]

/-- A denied equation over a smaller denied one, and both over an asserted one that has the sides of
the latter in the other order. -/
theorem compareLiterals_strict_equations :
    let σ := (Signature.initial.internFunction "f" 1).2
    let f (t : Term) : Term := .app .function (Signature.initial.internFunction "f" 1).1 [t]
    let x : Term := .var ⟨0, 0⟩
    let a : Literal := ⟨.equality x (f (f x)), false⟩
    let b : Literal := ⟨.equality (f x) x, false⟩
    let c : Literal := ⟨.equality x (f x), true⟩
    (a.WellFormed σ ∧ b.WellFormed σ ∧ c.WellFormed σ) ∧
      standard.compareLiterals a b = .ok greater ∧ standard.compareLiterals b a = .ok smaller ∧
      standard.compareLiterals b c = .ok greater ∧ standard.compareLiterals a c = .ok greater := by
  intro σ f x a b c
  have grown : σ.Grown := .function "f" 1 .initial
  have wf_f {t : Term} (wf : t.WellFormed σ) : (f t).WellFormed σ :=
    .app ⟨rfl, rfl⟩ rfl (List.forall_mem_singleton.2 wf)
  have wf_equality {s t : Term} (polarity : Bool) (wfS : s.WellFormed σ) (wfT : t.WellFormed σ) :
      Literal.WellFormed σ ⟨.equality s t, polarity⟩ :=
    ⟨rfl, .app ⟨rfl, grown.declares_equality⟩ rfl
      (List.forall_mem_cons.2 ⟨wfS, List.forall_mem_singleton.2 wfT⟩)⟩
  have wfX : x.WellFormed σ := .var _
  have wfA : a.WellFormed σ := wf_equality false wfX (wf_f (wf_f wfX))
  have wfB : b.WellFormed σ := wf_equality false (wf_f wfX) wfX
  have wfC : c.WellFormed σ := wf_equality true wfX (wf_f wfX)
  have ab : standard.compareLiterals a b = .ok greater := by decide +kernel
  have ba : standard.compareLiterals b a = .ok smaller := by decide +kernel
  have bc : standard.compareLiterals b c = .ok greater := by decide +kernel
  have ac : standard.compareLiterals a c ≠ .error .overflow := by decide +kernel
  obtain ⟨first, second, outer, ab', -, bc', ac', -, trans, -⟩ :=
    compareLiterals_strict grown wfA wfB wfC (ab ▸ nofun) (ba ▸ nofun) (bc ▸ nofun) ac
  cases ab.symm.trans ab'
  cases bc.symm.trans bc'
  rw [trans rfl rfl] at ac'
  exact ⟨⟨wfA, wfB, wfC⟩, ab, ba, bc, ac'⟩

end KnuthBendix

end SaturationCore
