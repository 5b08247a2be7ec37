/-
# Subsumption is a preorder

A clause subsumes itself, by no instances at all. If one clause subsumes another one and that
one a third, the instances of the first are read once more with those of the second. Only the
variables of the first clause get these instances, so nothing is wrong with a variable that
occurs in the second clause as well and stands for something else there.

Clauses that differ in the order of their literals and in the sides of equations subsume each
other. So either can take the place of the other on both sides of the test.
-/
import Mathlib.Data.List.Perm.Basic
import SaturationCore.Proofs.Subsumption.Decision

namespace SaturationCore

namespace TreeMatcher

variable {σ τ : TreeMatcher} {vs : List Variable} {t : Term}

/-- The ledger that reads some variables with one ledger first and what comes of them with
another. -/
def followed (σ τ : TreeMatcher) (vs : List Variable) : TreeMatcher :=
  ⟨vs.map fun v => (v, τ.replace (σ.replace (.var v)))⟩

theorem get?_followed (v : Variable) : (followed σ τ vs).get? v =
    if v ∈ vs then some (τ.replace (σ.replace (.var v))) else none := by
  rw [followed, Ledger.get?]
  induction vs with
  | nil => rfl
  | cons u vs ih =>
      rw [List.map_cons, List.lookup_cons, ih]
      by_cases here : v = u
      · subst here
        rw [beq_self_eq_true, if_pos List.mem_cons_self]
      · rw [beq_eq_false_iff_ne.2 here]
        simp only [List.mem_cons, here, false_or]

theorem isBound_followed (v : Variable) : (followed σ τ vs).isBound v = true ↔ v ∈ vs := by
  rw [Ledger.isBound, get?_followed]
  split <;> simp [*]

/-- Trees over the given variables are read with both ledgers. -/
theorem replace_followed (known : ∀ v, t.mentions v = true → v ∈ vs) :
    (followed σ τ vs).replace t = τ.replace (σ.replace t) := by
  induction t using Term.induction with
  | var v =>
      have inside := known v (Term.mentions_var.2 rfl)
      rw [replace_var, deref_var, get?_followed, if_pos inside, Option.getD_some]
  | app role s args ih =>
      rw [replace_app, replace_app, replace_app, List.map_map]
      congr 1
      apply List.map_congr_left
      intro a ha
      exact ih a ha fun v h => known v (Term.mentions_eq_true_iff.2 (.inr ⟨a, ha, h⟩))
  | abstraction u body ih =>
      rw [replace_abstraction, replace_abstraction, replace_abstraction, ih]
      intro v h
      exact known v (Term.mentions_eq_true_iff.2 (.inr ⟨body, List.mem_cons_self, h⟩))

end TreeMatcher

open TreeMatcher

namespace Literal

variable {sig : Signature} {l m k : Literal} {σ τ : TreeMatcher} {vs : List Variable}

namespace Alike

/-- Instances of literals that are alike are alike. -/
theorem under (alike : l.Alike m) (ω : TreeMatcher) : (l.under ω).Alike (m.under ω) := by
  have equality (s t : Term) : ω.replace (.equality s t) = .equality (ω.replace s) (ω.replace t) :=
    replace_app _ _ _ _
  obtain ⟨polarity, same | ⟨s, t, atom, atom'⟩⟩ := alike
  · exact ⟨polarity, .inl (congrArg ω.replace same)⟩
  · refine ⟨polarity, .inr ⟨ω.replace s, ω.replace t, ?_, ?_⟩⟩
    · rw [Literal.under, atom, equality]
    · rw [Literal.under, atom', equality]

theorem wellFormed (alike : l.Alike m) (wf : l.WellFormed sig) : m.WellFormed sig := by
  obtain ⟨-, same | ⟨s, t, atom, atom'⟩⟩ := alike
  · exact ⟨same ▸ wf.isAtom, same ▸ wf.atom⟩
  · have sides := wf.atom
    rw [atom] at sides
    refine ⟨by rw [atom']; rfl, ?_⟩
    rw [atom']
    cases sides with
    | app fit len inner =>
        rw [List.forall_mem_cons, List.forall_mem_singleton] at inner
        exact .app fit len (List.forall_mem_cons.2 ⟨inner.2, List.forall_mem_singleton.2 inner.1⟩)

theorem isQuantifierFree (alike : l.Alike m) (plain : l.atom.isQuantifierFree = true) :
    m.atom.isQuantifierFree = true := by
  obtain ⟨-, same | ⟨s, t, atom, atom'⟩⟩ := alike
  · rwa [← same]
  · rw [atom, Term.isQuantifierFree_equality] at plain
    rw [atom', Term.isQuantifierFree_equality]
    exact plain.symm

end Alike

theorem under_empty (l : Literal) : l.under .empty = l := by
  rw [under, replace_empty]

/-- A literal that fits one literal, which fits another, fits that one with both ledgers. -/
theorem Fits.followed (first : Fits σ l m) (second : Fits τ m k)
    (known : ∀ v, l.atom.mentions v = true → v ∈ vs) :
    Fits (TreeMatcher.followed σ τ vs) l k := by
  have twice : l.under (TreeMatcher.followed σ τ vs) = (l.under σ).under τ := by
    rw [under, replace_followed known]
    rfl
  refine ⟨?_, first.plain, second.plain'⟩
  rw [twice]
  exact (first.alike.under τ).trans second.alike

end Literal

namespace Clause

variable {sig : Signature} {c d e : Clause} {σ τ : TreeMatcher}

/-- The clause is over well-formed atoms without quantifiers. -/
structure Proper (sig : Signature) (c : Clause) : Prop where
  wellFormed : c.WellFormed sig
  plain : ∀ l ∈ c.literals, l.atom.isQuantifierFree = true

/-- The second clause is the first with its literals in another order and the sides of equations
swapped. -/
def Alike (c d : Clause) : Prop :=
  ∃ ls, c.literals.Perm ls ∧ List.Forall₂ Literal.Alike ls d.literals

namespace Alike

theorem symm (alike : c.Alike d) : d.Alike c := by
  obtain ⟨ls, perm, each⟩ := alike
  obtain ⟨ls', each', perm'⟩ := List.perm_comp_forall₂ perm each
  exact ⟨ls', perm'.symm, each'.flip.imp fun _ _ => Literal.Alike.symm⟩

theorem forall_mem {p : Literal → Prop} (alike : c.Alike d) (holds : ∀ l ∈ c.literals, p l)
    (kept : ∀ l m, l.Alike m → p l → p m) : ∀ m ∈ d.literals, p m := by
  obtain ⟨ls, perm, each⟩ := alike
  have holds' : ∀ l ∈ ls, p l := fun l hl => holds l (perm.mem_iff.2 hl)
  clear holds perm
  generalize d.literals = ms at each ⊢
  induction each with
  | nil => exact List.forall_mem_nil p
  | cons same _ ih =>
      rw [List.forall_mem_cons] at holds' ⊢
      exact ⟨kept _ _ same holds'.1, ih holds'.2⟩

theorem proper (alike : c.Alike d) (proper : c.Proper sig) : d.Proper sig where
  wellFormed := alike.forall_mem proper.wellFormed fun _ _ same => same.wellFormed
  plain := alike.forall_mem proper.plain fun _ _ same => same.isQuantifierFree

end Alike

/-- The variables at leaves of the literals. -/
def leaves (c : Clause) : List Variable :=
  c.literals.flatMap fun l => l.atom.spelling.filterMap (·.asVariable)

theorem mem_leaves_iff {v : Variable} : v ∈ c.leaves ↔ c.Mentions v := by
  simp only [leaves, Mentions, Term.mentions_iff_mem, List.mem_flatMap,
    Head.mem_filterMap_asVariable]

theorem attemptSubsumption_iff (grown : sig.Grown) (properC : c.Proper sig) (properD : d.Proper sig) :
    (c.attemptSubsumption d .empty).1 = true ↔ ∃ τ, c.Subsumes d .empty τ := by
  rcases c.attemptSubsumption_cases d .empty with ⟨ws, τ, maps, answered⟩ | ⟨answered, none⟩
  · rw [answered]
    exact iff_of_true rfl
      ⟨τ, (subsumes_of_maps grown properC.wellFormed properD.wellFormed plain_empty maps).1⟩
  · rw [answered]
    refine iff_of_false nofun ?_
    rintro ⟨τ, subsumes⟩
    obtain ⟨ws, ω, maps⟩ := subsumes.exists_maps grown properC.wellFormed properD.wellFormed
    exact none ws ω maps

/-- Clauses that are alike subsume each other without any instances. -/
theorem Alike.subsumes (alike : c.Alike d) (proper : c.Proper sig) :
    c.Subsumes d .empty .empty where
  kept _ _ bound := bound
  bound _ bound := .inl bound
  mapped := by
    have proper' := alike.proper proper
    obtain ⟨ls, perm, each⟩ := alike
    refine ⟨fun i => (perm.idxBij i).cast each.length_eq, fun i j same => ?_, fun i => ⟨?_, ?_, ?_⟩⟩
    · exact perm.idxBij_injective (Fin.cast_injective _ same)
    · have same := each.get (perm.idxBij i).isLt ((perm.idxBij i).cast each.length_eq).isLt
      rw [List.get_eq_getElem, perm.getElem_idxBij_eq_getElem i] at same
      rw [Literal.under_empty]
      exact same
    · exact proper.plain _ (List.getElem_mem _)
    · exact proper'.plain _ (List.getElem_mem _)

theorem Subsumes.trans (first : c.Subsumes d .empty σ) (second : d.Subsumes e .empty τ) :
    c.Subsumes e .empty (followed σ τ c.leaves) := by
  obtain ⟨-, -, f, injective, fits⟩ := first
  obtain ⟨-, -, g, injective', fits'⟩ := second
  refine ⟨nofun, fun v bound => ?_, g ∘ f, injective'.comp injective, fun i => ?_⟩
  · exact .inr (mem_leaves_iff.1 ((isBound_followed v).1 bound))
  · refine (fits i).followed (fits' (f i)) fun v h => ?_
    exact mem_leaves_iff.2 ⟨_, List.getElem_mem i.isLt, h⟩

theorem Alike.refl (c : Clause) : c.Alike c :=
  ⟨c.literals, .refl _, List.forall₂_same.2 fun l _ => .refl l⟩

/-- From the empty ledger, the subsumption test says of clauses without quantifiers that each
subsumes itself, and that one subsumes a third that is subsumed by a clause it subsumes, whatever
variables they share. The order of literals and the sides of equations make no difference. -/
theorem attemptSubsumption_preorder (grown : sig.Grown) (properC : c.Proper sig)
    (properD : d.Proper sig) (properE : e.Proper sig) :
    (c.attemptSubsumption c .empty).1 = true ∧
      ((c.attemptSubsumption d .empty).1 = true → (d.attemptSubsumption e .empty).1 = true →
        (c.attemptSubsumption e .empty).1 = true) ∧
      ∀ c' d', c.Alike c' → d.Alike d' →
        (c'.attemptSubsumption d' .empty).1 = (c.attemptSubsumption d .empty).1 := by
  refine ⟨?_, fun first second => ?_, fun c' d' alikeC alikeD => ?_⟩
  · exact (attemptSubsumption_iff grown properC properC).2 ⟨_, (Alike.refl c).subsumes properC⟩
  · obtain ⟨σ, first⟩ := (attemptSubsumption_iff grown properC properD).1 first
    obtain ⟨τ, second⟩ := (attemptSubsumption_iff grown properD properE).1 second
    exact (attemptSubsumption_iff grown properC properE).2 ⟨_, first.trans second⟩
  · have properC' := alikeC.proper properC
    have properD' := alikeD.proper properD
    rw [Bool.eq_iff_iff, attemptSubsumption_iff grown properC' properD',
      attemptSubsumption_iff grown properC properD]
    constructor
    · rintro ⟨τ, subsumes⟩
      exact ⟨_, ((alikeC.subsumes properC).trans subsumes).trans (alikeD.symm.subsumes properD')⟩
    · rintro ⟨τ, subsumes⟩
      exact ⟨_, ((alikeC.symm.subsumes properC').trans subsumes).trans (alikeD.subsumes properD)⟩

/-- The clauses `p(X0) | X0 = X1` and `p(f(X0)) | X1 = f(X0)` share their variables, and the first
subsumes the second by `f(X0)` for `X0`. -/
theorem attemptSubsumption_preorder_shared :
    let sig := (((Signature.initial.internFunction "f" 1).2.internConstant "a").2.internPredicate
      "p" 1).2
    let f (t : Term) : Term := .app .function ⟨8, .function, 1⟩ [t]
    let a : Term := .app .constant ⟨9, .constant, 0⟩ []
    let p (t : Term) : Literal := ⟨.app .predicate ⟨10, .predicate, 1⟩ [t], true⟩
    let x (i : Nat) : Term := .var ⟨0, i⟩
    let c : Clause := ⟨[p (x 0), ⟨.equality (x 0) (x 1), true⟩]⟩
    let c' : Clause := ⟨[⟨.equality (x 1) (x 0), true⟩, p (x 0)]⟩
    let d : Clause := ⟨[p (f (x 0)), ⟨.equality (x 1) (f (x 0)), true⟩]⟩
    let e : Clause := ⟨[p a, ⟨.equality a (f (f a)), true⟩, p (f (f a))]⟩
    (sig.Grown ∧ c.Proper sig ∧ d.Proper sig ∧ e.Proper sig ∧ c.Alike c') ∧
      (c.attemptSubsumption d .empty).1 = true ∧ (d.attemptSubsumption e .empty).1 = true ∧
      (c.attemptSubsumption e .empty).1 = true ∧ (c'.attemptSubsumption d .empty).1 = true := by
  intro sig f a p x c c' d e
  have grown : sig.Grown := .predicate "p" 1 (.constant "a" (.function "f" 1 .initial))
  have properC : c.Proper sig := ⟨by decide +kernel, by decide +kernel⟩
  have properD : d.Proper sig := ⟨by decide +kernel, by decide +kernel⟩
  have properE : e.Proper sig := ⟨by decide +kernel, by decide +kernel⟩
  have alike : c.Alike c' :=
    ⟨_, .swap _ _ _, .cons ⟨rfl, .inr ⟨_, _, rfl, rfl⟩⟩ (.cons (.refl _) .nil)⟩
  have first : (c.attemptSubsumption d .empty).1 = true := by decide +kernel
  have second : (d.attemptSubsumption e .empty).1 = true := by decide +kernel
  obtain ⟨-, trans, same⟩ := attemptSubsumption_preorder grown properC properD properE
  exact ⟨⟨grown, properC, properD, properE, alike⟩, first, second, trans first second,
    (same c' d alike (.refl d)).trans first⟩

end Clause

end SaturationCore
