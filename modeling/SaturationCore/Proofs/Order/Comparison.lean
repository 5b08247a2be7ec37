/-
# Comparisons and their extension to multisets

A comparison answers for any two elements with one of four outcomes. It is faithful when
it answers alike from both sides and calls just the equal elements equivalent, and it is
acyclic when no chain of ever greater elements comes back to its start. A strict one,
whose `greater` is transitive, is acyclic.

Multisets are compared by what is left of either when common elements are cancelled:
what is left of the greater one is not empty and has a greater element for each of the
other. For an acyclic comparison at most one of two multisets is the greater one. For a
strict comparison this is the multiset order, in which a multiset gets smaller when some of its
elements are replaced by any number of lesser ones, and the extension is strict again.
-/
import Mathlib.Algebra.Order.Sub.Basic
import Mathlib.Data.Multiset.DershowitzManna
import Mathlib.Data.Set.Finite.Lemmas
import Mathlib.Order.Compare
import Mathlib.Order.Preorder.Finite
import SaturationCore.Order.Basic

namespace SaturationCore

/-- An outcome for any two elements. -/
abbrev Comparison (α : Type) := α → α → TermOrdering

namespace Comparison

variable {α : Type} {cmp : Comparison α}

/-- The comparison answers alike from both sides, and just the equal elements are
equivalent. -/
structure Faithful (cmp : Comparison α) : Prop where
  flip_eq : ∀ a b, (cmp a b).flip = cmp b a
  equivalent_iff : ∀ a b, cmp a b = .equivalent ↔ a = b

/-- No chain of elements of which each is greater than the next comes back to its start. -/
structure Acyclic (cmp : Comparison α) : Prop extends Faithful cmp where
  no_cycle : ∀ a, ¬ Relation.TransGen (fun x y => cmp x y = .greater) a a

/-- What is greater than a greater element is greater itself. -/
structure Strict (cmp : Comparison α) : Prop extends Faithful cmp where
  trans : ∀ a b c, cmp a b = .greater → cmp b c = .greater → cmp a c = .greater

theorem Faithful.smaller_iff (faithful : cmp.Faithful) {a b : α} :
    cmp a b = .smaller ↔ cmp b a = .greater := by
  rw [← faithful.flip_eq a b]
  cases cmp a b <;> simp [TermOrdering.flip]

theorem Faithful.not_greater_self (faithful : cmp.Faithful) (a : α) : cmp a a ≠ .greater := by
  rw [(faithful.equivalent_iff a a).2 rfl]
  exact TermOrdering.noConfusion

theorem Strict.acyclic (strict : cmp.Strict) : cmp.Acyclic where
  toFaithful := strict.toFaithful
  no_cycle := by
    have transitive : IsTrans α fun x y => cmp x y = .greater := ⟨strict.trans⟩
    intro a chain
    rw [Relation.transGen_eq_self] at chain
    exact strict.not_greater_self a chain

/-- In an acyclic comparison some element of a multiset has no greater one beside it. -/
theorem Acyclic.exists_undominated (acyclic : cmp.Acyclic) {M : Multiset α} (h : M ≠ 0) :
    ∃ m ∈ M, ∀ x ∈ M, cmp x m ≠ .greater := by
  classical
  have order : IsStrictOrder α fun x y => Relation.TransGen (fun x y => cmp x y = .greater) y x :=
    { irrefl := acyclic.no_cycle, trans := fun _ _ _ lower upper => upper.trans lower }
  let _ := partialOrderOfSO fun x y => Relation.TransGen (fun x y => cmp x y = .greater) y x
  obtain ⟨m, maximal⟩ := M.toFinset.exists_maximal (Multiset.toFinset_nonempty.2 h)
  refine ⟨m, Multiset.mem_toFinset.1 maximal.prop, fun x hx greater => ?_⟩
  exact maximal.not_gt (Multiset.mem_toFinset.2 hx) (Relation.TransGen.single greater)

/-- Every element of a multiset is, or has above it, one that has no greater one beside it. -/
theorem Strict.exists_undominated_above (strict : cmp.Strict) {M : Multiset α} {z : α}
    (hz : z ∈ M) : ∃ m ∈ M, (m = z ∨ cmp m z = .greater) ∧ ∀ x ∈ M, cmp x m ≠ .greater := by
  classical
  have some : M.filter (fun w => w = z ∨ cmp w z = .greater) ≠ 0 := by
    intro none
    rw [Multiset.filter_eq_nil] at none
    exact none z hz (.inl rfl)
  obtain ⟨m, hm, undominated⟩ := strict.acyclic.exists_undominated some
  obtain ⟨inside, above⟩ := Multiset.mem_filter.1 hm
  refine ⟨m, inside, above, fun x hx greater => ?_⟩
  have still : cmp x z = .greater := by
    obtain rfl | upper := above
    · exact greater
    · exact strict.trans x m z greater upper
  exact undominated x (Multiset.mem_filter.2 ⟨hx, .inr still⟩) greater

theorem flip_ofOrdering (o : Ordering) :
    (TermOrdering.ofOrdering o).flip = TermOrdering.ofOrdering o.swap := by
  cases o <;> rfl

/-- The places of a total order are compared strictly. -/
theorem strict_ofOrdering (α : Type) [LinearOrder α] :
    Strict fun a b : α => .ofOrdering (compare a b) where
  flip_eq a b := by rw [flip_ofOrdering, ← Std.OrientedCmp.eq_swap]
  equivalent_iff a b := by
    refine Iff.trans ?_ compare_eq_iff_eq
    cases compare a b <;> decide
  trans a b c first second := by
    have above {a b : α} : TermOrdering.ofOrdering (compare a b) = .greater ↔ b < a := by
      refine Iff.trans ?_ compare_gt_iff_gt
      cases compare a b <;> decide
    rw [above] at *
    exact second.trans first

/-! ## Multisets -/

/-- The multiset `M` is not empty and has a greater element for each element of `N`. -/
def Outdoes (cmp : Comparison α) (M N : Multiset α) : Prop :=
  M ≠ 0 ∧ ∀ b ∈ N, ∃ a ∈ M, cmp a b = .greater

instance [DecidableEq α] (M N : Multiset α) : Decidable (cmp.Outdoes M N) :=
  have (b : α) : Decidable (∃ a ∈ M, cmp a b = .greater) := Multiset.decidableExistsMultiset
  have : Decidable (∀ b ∈ N, ∃ a ∈ M, cmp a b = .greater) := Multiset.decidableForallMultiset
  inferInstanceAs (Decidable (M ≠ 0 ∧ ∀ b ∈ N, ∃ a ∈ M, cmp a b = .greater))

theorem outdoes_congr {M N P Q : Multiset α} (left : ∀ x, x ∈ M ↔ x ∈ P)
    (right : ∀ x, x ∈ N ↔ x ∈ Q) : cmp.Outdoes M N ↔ cmp.Outdoes P Q := by
  simp only [Outdoes, ne_eq, Multiset.eq_zero_iff_forall_notMem, left, right]

/-- Equal elements are cancelled pairwise, and the rests are compared. -/
def extension [DecidableEq α] (cmp : Comparison α) : Comparison (Multiset α) := fun M N =>
  if M - N = 0 ∧ N - M = 0 then .equivalent
  else if cmp.Outdoes (M - N) (N - M) then .greater
  else if cmp.Outdoes (N - M) (M - N) then .smaller
  else .incomparable

/-- No two multisets outdo each other. -/
theorem Acyclic.not_outdoes (acyclic : cmp.Acyclic) {M N : Multiset α} (first : cmp.Outdoes M N) :
    ¬ cmp.Outdoes N M := by
  rintro ⟨-, second⟩
  have some : M + N ≠ 0 := fun none => first.1 (add_eq_zero.1 none).1
  obtain ⟨m, hm, undominated⟩ := acyclic.exists_undominated some
  obtain left | right := Multiset.mem_add.1 hm
  · obtain ⟨b, hb, greater⟩ := second m left
    exact undominated b (Multiset.mem_add.2 (.inr hb)) greater
  · obtain ⟨a, ha, greater⟩ := first.2 m right
    exact undominated a (Multiset.mem_add.2 (.inl ha)) greater

variable [DecidableEq α] {M N P Q : Multiset α}

theorem extension_eq_equivalent_iff : cmp.extension M N = .equivalent ↔ M = N := by
  have rests : M - N = 0 ∧ N - M = 0 ↔ M = N := by
    rw [tsub_eq_zero_iff_le, tsub_eq_zero_iff_le]
    exact le_antisymm_iff.symm
  simp only [extension, rests]
  split_ifs with same <;> simp [same]

theorem extension_eq_greater_iff :
    cmp.extension M N = .greater ↔ cmp.Outdoes (M - N) (N - M) := by
  rw [extension]
  split_ifs with same outdoes
  · simp [Outdoes, same.1]
  · simp [outdoes]
  · simp [outdoes]
  · simp [outdoes]

theorem Acyclic.flip_extension (acyclic : cmp.Acyclic) (M N : Multiset α) :
    (cmp.extension M N).flip = cmp.extension N M := by
  have swapped : N - M = 0 ∧ M - N = 0 ↔ M - N = 0 ∧ N - M = 0 := and_comm
  simp only [extension, swapped]
  split_ifs with same left right right
  · rfl
  · exact absurd right (acyclic.not_outdoes left)
  · rfl
  · rfl
  · rfl

/-- It only matters which elements are left on which side. -/
theorem extension_congr (left : ∀ x, x ∈ M - N ↔ x ∈ P - Q) (right : ∀ x, x ∈ N - M ↔ x ∈ Q - P) :
    cmp.extension M N = cmp.extension P Q := by
  have empty {R S : Multiset α} (same : ∀ x, x ∈ R ↔ x ∈ S) : R = 0 ↔ S = 0 := by
    simp only [Multiset.eq_zero_iff_forall_notMem, same]
  simp only [extension, empty left, empty right, outdoes_congr left right,
    outdoes_congr right left]

theorem extension_cons_cons (a : α) (M N : Multiset α) :
    cmp.extension (a ::ₘ M) (a ::ₘ N) = cmp.extension M N := by
  simp only [extension, Multiset.sub_cons, Multiset.erase_cons_head]

/-- Multisets without common elements are compared as they are. -/
theorem extension_of_disjoint (apart : Disjoint M N) (some : M ≠ 0) :
    cmp.extension M N =
      if cmp.Outdoes M N then .greater
      else if cmp.Outdoes N M then .smaller
      else .incomparable := by
  have rest {R S : Multiset α} (apart : Disjoint R S) : R - S = R := by
    have whole := Multiset.sub_add_inter R S
    rwa [Multiset.inter_eq_zero_iff_disjoint.2 apart, add_zero] at whole
  rw [extension, rest apart, rest apart.symm, if_neg fun both => some both.1]

/-- Taking every element twice makes no difference. -/
theorem extension_double (M N : Multiset α) :
    cmp.extension (M + M) (N + N) = cmp.extension M N := by
  apply extension_congr <;> intro x <;> rw [Multiset.mem_sub, Multiset.mem_sub, Multiset.count_add,
    Multiset.count_add] <;> omega

/-- Against no more than two elements, each of several elements that are taken twice is left
unless nothing is left on the other side, where an element goes that occurs on both. -/
theorem extension_doubled (few : N.card ≤ 2) (many : 1 < M.card) :
    cmp.extension (M + M) N =
      if cmp.Outdoes M (N.filter (· ∉ M)) then .greater
      else if cmp.Outdoes (N.filter (· ∉ M)) M then .smaller
      else .incomparable := by
  have right (x : α) : x ∈ N - (M + M) ↔ x ∈ N.filter (· ∉ M) := by
    rw [Multiset.mem_sub, Multiset.mem_filter, Multiset.count_add]
    constructor
    · intro more
      refine ⟨Multiset.count_pos.1 (Nat.zero_lt_of_lt more), fun inside => ?_⟩
      have := Multiset.count_pos.2 inside
      have := Multiset.count_le_card x N
      omega
    · rintro ⟨inside, absent⟩
      rw [Multiset.count_eq_zero_of_notMem absent]
      exact Multiset.count_pos.2 inside
  have some : M + M - N ≠ 0 := by
    intro none
    have := Multiset.card_le_card (tsub_eq_zero_iff_le.1 none)
    rw [Multiset.card_add] at this
    omega
  have left (rest : N.filter (· ∉ M) ≠ 0) (x : α) : x ∈ M + M - N ↔ x ∈ M := by
    obtain ⟨y, hy⟩ := Multiset.exists_mem_of_ne_zero rest
    obtain ⟨inside, absent⟩ := Multiset.mem_filter.1 hy
    rw [Multiset.mem_sub, Multiset.count_add, ← Multiset.count_pos]
    constructor
    · omega
    · intro positive
      have apart : x ≠ y := fun same => absent (same ▸ Multiset.count_pos.1 positive)
      have := Multiset.count_le_card x (N.erase y)
      rw [Multiset.count_erase_of_ne apart] at this
      have := Multiset.card_erase_lt_of_mem inside
      omega
  rw [extension, if_neg fun both => some both.1]
  by_cases rest : N.filter (· ∉ M) = 0
  · have outdoes : cmp.Outdoes (M + M - N) (N - (M + M)) :=
      ⟨some, fun b hb => by simp [right, rest] at hb⟩
    have outdoes' : cmp.Outdoes M (N.filter (· ∉ M)) :=
      ⟨fun none => by simp [none] at many, fun b hb => by simp [rest] at hb⟩
    rw [if_pos outdoes, if_pos outdoes']
  · simp only [outdoes_congr (left rest) right, outdoes_congr right (left rest)]

/-! ## Strictness -/

namespace Strict

variable (strict : cmp.Strict)
include strict

/-- The order whose smaller elements are those that greater ones exceed. -/
@[reducible]
def preorder : Preorder α where
  le a b := a = b ∨ cmp b a = .greater
  lt a b := cmp b a = .greater
  le_refl a := .inl rfl
  le_trans := by
    rintro a b c (rfl | lower) (rfl | upper)
    · exact .inl rfl
    · exact .inr upper
    · exact .inr lower
    · exact .inr (strict.trans c b a upper lower)
  lt_iff_le_not_ge := by
    intro a b
    constructor
    · intro greater
      refine ⟨.inr greater, ?_⟩
      rintro (rfl | back)
      · exact strict.not_greater_self b greater
      · exact strict.not_greater_self a (strict.trans a b a back greater)
    · rintro ⟨rfl | greater, apart⟩
      · exact absurd (.inl rfl) apart
      · exact greater

/-- If `Z` exceeds each element of `Y`, then cancelling `Y` from `Z` leaves an element
that is as great as any that was there. -/
theorem exists_mem_sub {Y Z : Multiset α} (below : ∀ y ∈ Y, ∃ z ∈ Z, cmp z y = .greater) {z : α}
    (hz : z ∈ Z) : ∃ m ∈ Z - Y, m = z ∨ cmp m z = .greater := by
  obtain ⟨m, inside, above, undominated⟩ := strict.exists_undominated_above hz
  have absent : m ∉ Y := by
    intro cancelled
    obtain ⟨w, hw, greater⟩ := below m cancelled
    exact undominated w hw greater
  refine ⟨m, ?_, above⟩
  rw [Multiset.mem_sub, Multiset.count_eq_zero_of_notMem absent]
  exact Multiset.count_pos.2 inside

/-- A multiset is greater than another one just when replacing some of its elements by lesser
ones leads to the other. -/
theorem extension_eq_greater_iff_multisetLT :
    cmp.extension M N = .greater ↔ @Multiset.IsDershowitzMannaLT α strict.preorder N M := by
  rw [extension_eq_greater_iff]
  constructor
  · rintro ⟨some, below⟩
    refine ⟨M ∩ N, N - M, M - N, some, ?_, ?_, below⟩
    · rw [add_comm, Multiset.inter_comm, Multiset.sub_add_inter]
    · rw [add_comm, Multiset.sub_add_inter]
  · rintro ⟨X, Y, Z, some, rfl, rfl, below⟩
    rw [add_tsub_add_eq_tsub_left, add_tsub_add_eq_tsub_left]
    obtain ⟨z, hz⟩ := Multiset.exists_mem_of_ne_zero some
    obtain ⟨m, hm, -⟩ := strict.exists_mem_sub below hz
    refine ⟨fun none => Multiset.notMem_zero m (none ▸ hm), fun y hy => ?_⟩
    obtain ⟨w, hw, greater⟩ := below y (Multiset.mem_of_le (Multiset.sub_le_self _ _) hy)
    obtain ⟨n, hn, above⟩ := strict.exists_mem_sub below hw
    refine ⟨n, hn, ?_⟩
    obtain rfl | upper := above
    · exact greater
    · exact strict.trans n w y upper greater

/-- The extension of a strict comparison to multisets is strict. -/
theorem extension : cmp.extension.Strict where
  flip_eq := strict.acyclic.flip_extension
  equivalent_iff _ _ := extension_eq_equivalent_iff
  trans M N P first second := by
    let _ := strict.preorder
    rw [strict.extension_eq_greater_iff_multisetLT] at *
    exact second.trans first

end Strict

end Comparison

end SaturationCore
