/-
# Maximal literals

A literal is maximal when no other literal of its clause is greater. Both orderings of literals
compare what they read of them: the admissible ordering reads standings, the shallow one a
weight and an identifier. Either is strict on what it reads, so above every literal there is a
maximal one. The maximal literals of a clause are therefore some if the clause is not empty,
and every other literal is below one of them.

Ties are kept: of literals that read the same, all are maximal or none is.
-/
import Mathlib.Data.Prod.Lex
import SaturationCore.Proofs.Order.Literal

namespace SaturationCore

/-! ## Decisions made one by one -/

section Decisions

variable {α : Type} {p : α → Checked Bool} {q : α → Bool} {xs : List α}

theorem allM_eq_ok (each : ∀ x ∈ xs, p x = .ok (q x)) : xs.allM p = .ok (xs.all q) := by
  induction xs with
  | nil => rfl
  | cons x xs ih =>
      rw [List.forall_mem_cons] at each
      rw [List.allM_cons, each.1, List.all_cons]
      cases q x with
      | true => exact ih each.2
      | false => rfl

theorem filterM_eq_ok (each : ∀ x ∈ xs, p x = .ok (q x)) : xs.filterM p = .ok (xs.filter q) := by
  have collect (acc : List α) : xs.filterAuxM p acc = .ok ((xs.filter q).reverse ++ acc) := by
    induction xs generalizing acc with
    | nil => rfl
    | cons x xs ih =>
        rw [List.forall_mem_cons] at each
        rw [List.filterAuxM, each.1]
        refine (ih each.2 _).trans (congrArg Except.ok ?_)
        cases kept : q x with
        | true => rw [List.filter_cons_of_pos kept, List.reverse_cons, List.append_assoc]; rfl
        | false => rw [List.filter_cons_of_neg (Bool.eq_false_iff.1 kept)]; rfl
  rw [List.filterM, collect []]
  exact congrArg Except.ok (by rw [List.append_nil, List.reverse_reverse])

end Decisions

/-! ## Dominating places -/

/-- The places ascend, what stands there has nothing greater in the clause, and everything that
stands elsewhere has something greater at one of them. -/
structure Dominating (cmp : Literal → Literal → Checked TermOrdering) (ls : List Literal)
    (places : List Nat) : Prop where
  ne_nil : places ≠ []
  ascending : places.Pairwise (· < ·)
  undominated : ∀ i ∈ places, ∃ a, ls[i]? = some a ∧
    ∀ b ∈ ls, ∃ o, cmp a b = .ok o ∧ o ≠ .smaller
  dominates : ∀ i a, ls[i]? = some a → i ∉ places →
    ∃ j ∈ places, ∃ b, ls[j]? = some b ∧ cmp a b = .ok .smaller

section Maximal

variable {β : Type} {rel : Comparison β} {view : Literal → β}
  {cmp : Literal → Literal → Checked TermOrdering} {ls : List Literal} {l : Literal} {i : Nat}

/-- Whether nothing in the clause reads greater than the literal. -/
def unexceeded (rel : Comparison β) (view : Literal → β) (ls : List Literal) (l : Literal) : Bool :=
  ls.all fun other => rel (view l) (view other) != .smaller

theorem unexceeded_iff :
    unexceeded rel view ls l = true ↔ ∀ b ∈ ls, rel (view l) (view b) ≠ .smaller := by
  simp [unexceeded]

variable (strict : rel.Strict)
  (answered : ∀ a ∈ ls, ∀ b ∈ ls, cmp a b = .ok (rel (view a) (view b)))
include strict answered

/-- The literal itself may be left out, since it does not read smaller than itself. -/
theorem isMaximal_eq (here : ls[i]? = some l) :
    isMaximal cmp ls i l = .ok (unexceeded rel view ls l) := by
  have numbered : unexceeded rel view ls l =
      ls.zipIdx.all fun x => rel (view l) (view x.1) != .smaller := by
    rw [unexceeded]
    conv_lhs => rw [← List.zipIdx_map_fst 0 ls, List.all_map]
    rfl
  rw [isMaximal, numbered]
  refine allM_eq_ok ?_
  rintro ⟨other, j⟩ there
  rw [List.mem_zipIdx_iff_getElem?] at there
  by_cases same : j = i
  · subst same
    obtain rfl : l = other := Option.some.inj (here.symm.trans there)
    rw [(strict.equivalent_iff _ _).2 rfl]
    exact if_pos rfl
  · have reply := answered l (List.mem_of_getElem? here) other (List.mem_of_getElem? there)
    refine (if_neg same).trans ?_
    rw [reply]
    rfl

theorem maximalLiterals_eq : maximalLiterals cmp ls =
    .ok ((ls.zipIdx.filter fun x => unexceeded rel view ls x.1).map (·.2)) := by
  have each : ∀ x ∈ ls.zipIdx, isMaximal cmp ls x.2 x.1 = .ok (unexceeded rel view ls x.1) :=
    fun x there => isMaximal_eq strict answered (List.mem_zipIdx_iff_getElem?.1 there)
  rw [maximalLiterals, filterM_eq_ok each]
  rfl

omit answered in
/-- Every literal of a clause reads the same as, or smaller than, one that nothing exceeds. -/
theorem exists_unexceeded (inside : l ∈ ls) : ∃ (j : Nat) (b : Literal), ls[j]? = some b ∧
    unexceeded rel view ls b = true ∧ (view b = view l ∨ rel (view b) (view l) = .greater) := by
  have seen {a : Literal} (ha : a ∈ ls) : view a ∈ (↑(ls.map view) : Multiset β) :=
    List.mem_map_of_mem ha
  obtain ⟨m, hm, above, undominated⟩ := strict.exists_undominated_above (seen inside)
  obtain ⟨b, hb, rfl⟩ := List.mem_map.1 (Multiset.mem_coe.1 hm)
  obtain ⟨j, there⟩ := List.mem_iff_getElem?.1 hb
  refine ⟨j, b, there, unexceeded_iff.2 fun c hc => ?_, above⟩
  rw [Ne, strict.smaller_iff]
  exact undominated (view c) (seen hc)

/-- The maximal literals dominate a clause that is not empty. -/
theorem maximalLiterals_dominating (nonempty : ls ≠ []) :
    ∃ places, maximalLiterals cmp ls = .ok places ∧ Dominating cmp ls places := by
  refine ⟨_, maximalLiterals_eq strict answered, ?_⟩
  have mem_places (i : Nat) :
      i ∈ (ls.zipIdx.filter fun x => unexceeded rel view ls x.1).map (·.2) ↔
        ∃ a, ls[i]? = some a ∧ unexceeded rel view ls a = true := by
    simp only [List.mem_map, List.mem_filter, List.mem_zipIdx_iff_getElem?, Prod.exists]
    constructor
    · rintro ⟨a, j, ⟨here, maximal⟩, rfl⟩
      exact ⟨a, here, maximal⟩
    · rintro ⟨a, here, maximal⟩
      exact ⟨a, i, ⟨here, maximal⟩, rfl⟩
  refine ⟨?_, ?_, fun i hi => ?_, fun i a here missing => ?_⟩
  · obtain ⟨l, inside⟩ := List.exists_mem_of_ne_nil ls nonempty
    obtain ⟨j, b, there, maximal, -⟩ := exists_unexceeded strict inside
    exact List.ne_nil_of_mem ((mem_places j).2 ⟨b, there, maximal⟩)
  · have places : (ls.zipIdx.map (·.2)).Pairwise (· < ·) := by
      rw [List.zipIdx_map_snd]
      exact List.pairwise_lt_range'
    exact places.sublist (List.filter_sublist.map _)
  · obtain ⟨a, here, maximal⟩ := (mem_places i).1 hi
    refine ⟨a, here, fun b hb => ⟨_, answered a (List.mem_of_getElem? here) b hb, ?_⟩⟩
    exact unexceeded_iff.1 maximal b hb
  · -- Something exceeds the literal, but that may be exceeded in turn; nothing exceeds what is
    -- above both.
    have exceeded : unexceeded rel view ls a ≠ true :=
      fun maximal => missing ((mem_places i).2 ⟨a, here, maximal⟩)
    simp only [Ne, unexceeded_iff, not_forall, not_not] at exceeded
    obtain ⟨c, hc, smaller⟩ := exceeded
    obtain ⟨j, b, there, maximal, above⟩ := exists_unexceeded strict hc
    refine ⟨j, (mem_places j).2 ⟨b, there, maximal⟩, b, there, ?_⟩
    rw [answered a (List.mem_of_getElem? here) b (List.mem_of_getElem? there)]
    rw [strict.smaller_iff] at smaller
    refine congrArg Except.ok (strict.smaller_iff.2 ?_)
    obtain same | upper := above
    · rw [same]
      exact smaller
    · exact strict.trans _ _ _ upper smaller

end Maximal

/-! ## The two orderings -/

namespace KnuthBendix

variable {k : KnuthBendix} {σ : Signature} {a b : Literal} {ls : List Literal}

/-- What the shallow ordering reads of a literal, when numbers have no bounds. -/
def shallowStanding (k : KnuthBendix) (l : Literal) : ℤ ×ₗ ℕ :=
  match l.predicate? with
  | some p =>
    toLex (l.args.foldl (fun total a => total + k.headWeight a.head) (k.symbolWeight p), p.id)
  | none => toLex (0, 0)

theorem exists_yields_shallowWeight (k : KnuthBendix) {l : Literal} (wf : l.WellFormed σ) :
    ∃ p weight, l.predicate = .ok p ∧ Yields (k.shallowWeight l) weight ∧
      k.shallowStanding l = toLex (weight, p.id) := by
  obtain ⟨f, args, atom⟩ := wf.exists_atom
  have shown : l.predicate? = some f := by rw [Literal.predicate?, atom]
  have predicate : l.predicate = .ok f := by rw [Literal.predicate, shown]
  refine ⟨f, _, predicate, ?_, by rw [shallowStanding, shown]⟩
  rw [shallowWeight, predicate]
  exact Yields.foldlM (fun _ _ => Weight.yields_add _ _) l.args (k.symbolWeight f)

/-- The shallow ordering compares what it reads. -/
theorem yields_compareShallow (wfA : a.WellFormed σ) (wfB : b.WellFormed σ) :
    Yields (k.compareShallow a b)
      (.ofOrdering (Ord.compare (k.shallowStanding a) (k.shallowStanding b))) := by
  obtain ⟨p, left, predicateA, weightA, standingA⟩ := exists_yields_shallowWeight k wfA
  obtain ⟨q, right, predicateB, weightB, standingB⟩ := exists_yields_shallowWeight k wfB
  rw [compareShallow, predicateA, predicateB, standingA, standingB, Prod.Lex.compare_def]
  exact weightA.bind (weightB.bind (.ok _))

/-- Under either ordering and whatever the configuration, the maximal literals of a clause that is
not empty are found unless a weight leaves its range. They are named by ascending places, at least
one; none of them is below any literal of the clause; and every other literal is below one of
them. -/
theorem maximalLiterals_dominate (grown : σ.Grown) (nonempty : ls ≠ [])
    (wf : ∀ l ∈ ls, l.WellFormed σ) :
    ((∀ a ∈ ls, ∀ b ∈ ls, k.compareLiterals a b ≠ .error .overflow) →
      ∃ places, maximalLiterals k.compareLiterals ls = .ok places ∧
        Dominating k.compareLiterals ls places) ∧
    ((∀ a ∈ ls, ∀ b ∈ ls, k.compareShallow a b ≠ .error .overflow) →
      ∃ places, maximalLiterals k.compareShallow ls = .ok places ∧
        Dominating k.compareShallow ls places) := by
  constructor <;> intro fits
  · have answered (a) (ha : a ∈ ls) (b) (hb : b ∈ ls) : k.compareLiterals a b =
        .ok (Standing.compare k.outcome a.standing b.standing) :=
      (yields_compareLiterals ((wf a ha).shape grown) ((wf b hb).shape grown)).eq_ok
        (fits a ha b hb)
    exact maximalLiterals_dominating (Standing.strict_compare k.outcome_strict) answered nonempty
  · have answered (a) (ha : a ∈ ls) (b) (hb : b ∈ ls) : k.compareShallow a b =
        .ok (.ofOrdering (Ord.compare (k.shallowStanding a) (k.shallowStanding b))) :=
      (yields_compareShallow (wf a ha) (wf b hb)).eq_ok (fits a ha b hb)
    exact maximalLiterals_dominating (Comparison.strict_ofOrdering (ℤ ×ₗ ℕ)) answered nonempty

/-- A clause of an equation, a literal that is denied twice and asserted once, and one that cannot
be compared with it. -/
theorem maximalLiterals_dominate_repeated :
    let σ := ((Signature.initial.internFunction "f" 1).2.internPredicate "p" 1).2
    let x : Term := .var ⟨0, 0⟩
    let y : Term := .var ⟨0, 1⟩
    let f (t : Term) : Term := .app .function ⟨8, .function, 1⟩ [t]
    let p (t : Term) (polarity : Bool) : Literal := ⟨.app .predicate ⟨9, .predicate, 1⟩ [t], polarity⟩
    let ls := [⟨.equality x (f x), true⟩, p (f x) true, p (f x) false, p y true, p (f x) false]
    (σ.Grown ∧ (∀ l ∈ ls, l.WellFormed σ) ∧
      (∀ a ∈ ls, ∀ b ∈ ls, standard.compareLiterals a b ≠ .error .overflow) ∧
      ∀ a ∈ ls, ∀ b ∈ ls, standard.compareShallow a b ≠ .error .overflow) ∧
    (maximalLiterals standard.compareLiterals ls = .ok [2, 3, 4] ∧
      Dominating standard.compareLiterals ls [2, 3, 4]) ∧
    maximalLiterals standard.compareShallow ls = .ok [0] ∧
      Dominating standard.compareShallow ls [0] := by
  intro σ x y f p ls
  have grown : σ.Grown := .predicate "p" 1 (.function "f" 1 .initial)
  have wf : ∀ l ∈ ls, l.WellFormed σ := by decide +kernel
  have fits : ∀ a ∈ ls, ∀ b ∈ ls, standard.compareLiterals a b ≠ .error .overflow := by
    decide +kernel
  have fits' : ∀ a ∈ ls, ∀ b ∈ ls, standard.compareShallow a b ≠ .error .overflow := by
    decide +kernel
  have found : maximalLiterals standard.compareLiterals ls = .ok [2, 3, 4] := by decide +kernel
  have found' : maximalLiterals standard.compareShallow ls = .ok [0] := by decide +kernel
  have nonempty : ls ≠ [] := List.cons_ne_nil _ _
  obtain ⟨admissible, shallow⟩ := maximalLiterals_dominate (k := standard) grown nonempty wf
  obtain ⟨places, given, dominating⟩ := admissible fits
  obtain ⟨places', given', dominating'⟩ := shallow fits'
  cases found.symm.trans given
  cases found'.symm.trans given'
  exact ⟨⟨grown, wf, fits, fits'⟩, ⟨found, dominating⟩, found', dominating'⟩

end KnuthBendix

end SaturationCore
