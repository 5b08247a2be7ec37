/-
# Clusters put together from nothing

A cluster that is made by the operations alone, in whatever order, denotes a finite set, and
everything that can be asked of it is answered as for that set. Reading a mask from its highest
bit down lists the elements in ascending order. The operations drop the zero words they leave
behind, so the number of words says nothing that the elements do not say, and clusters can be
compared word by word.
-/
import Mathlib.Data.Finset.Card
import SaturationCore.Proofs.Interchange

namespace SaturationCore

namespace Cluster

variable {mask bit : Nat} {rest : List Nat}

/-! ## The elements in ascending order -/

/-- Without its highest bit, a mask is what is below that bit. -/
theorem testBit_sub_highest (nonzero : mask ≠ 0) (bit : Nat) :
    (mask - 1 <<< mask.log2).testBit bit = (decide (bit < mask.log2) && mask.testBit bit) := by
  have low : mask - 1 <<< mask.log2 = mask % 2 ^ mask.log2 := by
    have fits : 2 ^ mask.log2 ≤ mask := Nat.log2_self_le nonzero
    have below : mask < 2 ^ mask.log2 * 2 := Nat.lt_log2_self
    rw [Nat.one_shiftLeft, Nat.mod_eq_sub_mod fits, Nat.mod_eq_of_lt (by omega)]
  rw [low, Nat.testBit_mod_two_pow]

/-- No bit of a mask is above its highest one. -/
theorem le_log2_of_testBit (set : mask.testBit bit = true) : bit ≤ mask.log2 := by
  by_contra above
  have small : mask < 2 ^ bit :=
    Nat.lt_of_lt_of_le Nat.lt_log2_self (Nat.pow_le_pow_right (by decide) (by omega))
  rw [Nat.testBit_lt_two_pow small] at set
  cases set

theorem mem_bitsOnto : bit ∈ bitsOnto mask rest ↔ mask.testBit bit = true ∨ bit ∈ rest := by
  induction mask, rest using bitsOnto.induct with
  | case1 rest => simp [bitsOnto]
  | case2 mask rest nonzero _ ih =>
      rw [bitsOnto, dif_neg nonzero, ih, testBit_sub_highest nonzero, List.mem_cons, ← or_assoc]
      refine or_congr_left ?_
      rw [Bool.and_eq_true, decide_eq_true_eq]
      constructor
      · rintro (⟨-, set⟩ | rfl)
        · exact set
        · exact Nat.testBit_log2 nonzero
      · intro set
        rcases Nat.lt_or_eq_of_le (le_log2_of_testBit set) with below | highest
        · exact .inl ⟨below, set⟩
        · exact .inr highest

theorem pairwise_bitsOnto (ascending : rest.Pairwise (· < ·))
    (behind : ∀ bit, mask.testBit bit = true → ∀ other ∈ rest, bit < other) :
    (bitsOnto mask rest).Pairwise (· < ·) := by
  induction mask, rest using bitsOnto.induct with
  | case1 rest =>
      rw [bitsOnto, dif_pos rfl]
      exact ascending
  | case2 mask rest nonzero _ ih =>
      rw [bitsOnto, dif_neg nonzero]
      apply ih
      · exact .cons (behind _ (Nat.testBit_log2 nonzero)) ascending
      · intro bit set
        rw [testBit_sub_highest nonzero, Bool.and_eq_true, decide_eq_true_eq] at set
        exact List.forall_mem_cons.2 ⟨set.1, behind bit set.2⟩

theorem mem_toList (c : Cluster) (bit : Nat) : bit ∈ c.toList ↔ c.contains bit = true := by
  rw [toList, mem_bitsOnto, or_iff_left List.not_mem_nil, contains]

/-- The elements are listed in strictly ascending order. -/
theorem pairwise_toList (c : Cluster) : c.toList.Pairwise (· < ·) :=
  pairwise_bitsOnto .nil fun _ _ _ inside => absurd inside List.not_mem_nil

/-- An element lies in one of the words. -/
theorem div_lt_width_of_contains {c : Cluster} (held : c.contains bit = true) :
    bit / 64 < c.width := by
  by_contra beyond
  have small : c.mask < 2 ^ bit := by
    refine Nat.lt_of_lt_of_le c.fits ?_
    rw [Nat.one_shiftLeft]
    exact Nat.pow_le_pow_right (by decide) (by omega)
  rw [contains, Nat.testBit_lt_two_pow small] at held
  cases held

theorem contains_remove (c : Cluster) (bit other : Nat) :
    (c.remove bit).contains other = (c.contains other && decide (bit ≠ other)) := by
  by_cases held : c.contains bit = true
  · have flipped : (c.remove bit).contains other = (c.mask ^^^ 1 <<< bit).testBit other := by
      rw [remove, if_pos (div_lt_width_of_contains held), if_pos held]
      rfl
    rw [flipped, Nat.testBit_xor, Nat.one_shiftLeft, Nat.testBit_two_pow]
    by_cases same : bit = other
    · subst same
      have set : c.mask.testBit bit = true := held
      simp [set]
    · simp [same, contains]
  · have untouched : (c.remove bit).contains other = c.contains other := by
      rw [remove, if_neg held]
      split <;> rfl
    rw [untouched]
    by_cases same : bit = other
    · subst same
      simp [held]
    · simp [same]

theorem contains_ofList (bits : List Nat) (bit : Nat) :
    (ofList bits).contains bit = decide (bit ∈ bits) := by
  have row (c : Cluster) :
      (bits.foldl insert c).contains bit = (c.contains bit || decide (bit ∈ bits)) := by
    induction bits generalizing c with
    | nil => simp
    | cons first bits ih =>
        rw [List.foldl_cons, ih, contains_insert, Bool.or_assoc]
        simp [eq_comm]
  rw [ofList, row, contains_empty, Bool.false_or]

/-! ## What is put together -/

/-- How a cluster is put together from nothing. -/
inductive Construction where
  | empty
  | singleton (bit : Nat)
  | ofList (bits : List Nat)
  | insert (a : Construction) (bit : Nat)
  | remove (a : Construction) (bit : Nat)
  | union (a b : Construction)
  | intersection (a b : Construction)
  | difference (a b : Construction)

namespace Construction

/-- The cluster that is put together. -/
def cluster : Construction → Cluster
  | empty => .empty
  | singleton bit => .singleton bit
  | ofList bits => .ofList bits
  | insert a bit => a.cluster.insert bit
  | remove a bit => a.cluster.remove bit
  | union a b => a.cluster.union b.cluster
  | intersection a b => a.cluster.intersection b.cluster
  | difference a b => a.cluster.difference b.cluster

/-- The set that is meant. -/
def elements : Construction → Finset Nat
  | empty => ∅
  | singleton bit => {bit}
  | ofList bits => bits.toFinset
  | insert a bit => Insert.insert bit a.elements
  | remove a bit => a.elements.erase bit
  | union a b => a.elements ∪ b.elements
  | intersection a b => a.elements ∩ b.elements
  | difference a b => a.elements \ b.elements

theorem trimmed_cluster (a : Construction) : a.cluster.Trimmed := by
  induction a with
  | empty => exact .empty
  | singleton bit => exact Trimmed.empty.insert bit
  | ofList bits => exact .ofList bits
  | insert a bit ih => exact ih.insert bit
  | remove a bit ih => exact ih.remove bit
  | union a b ih ih' => exact ih.union ih'
  | intersection a b => exact .intersection _ _
  | difference a b => exact .difference _ _

theorem contains_cluster (a : Construction) (bit : Nat) :
    a.cluster.contains bit = true ↔ bit ∈ a.elements := by
  induction a with
  | empty => simp [cluster, elements]
  | singleton other => simp [cluster, elements, Cluster.singleton, contains_insert, eq_comm]
  | ofList bits => simp [cluster, elements, contains_ofList]
  | insert a other ih =>
      rw [cluster, contains_insert, Bool.or_eq_true, decide_eq_true_eq, ih, elements,
        Finset.mem_insert, or_comm, @eq_comm _ bit]
  | remove a other ih =>
      rw [cluster, contains_remove, Bool.and_eq_true, decide_eq_true_eq, ih, elements,
        Finset.mem_erase, and_comm, @ne_comm _ bit]
  | union a b ih ih' => simp [cluster, elements, contains_union, ih, ih']
  | intersection a b ih ih' => simp [cluster, elements, contains_intersection, ih, ih']
  | difference a b ih ih' => simp [cluster, elements, contains_difference, ih, ← ih']

theorem toFinset_toList (a : Construction) : a.cluster.toList.toFinset = a.elements := by
  ext bit
  rw [List.mem_toFinset, mem_toList, contains_cluster]

/-- A cluster that is put together by the operations ends in no zero word and is the set that
was meant: it has the elements of that set and lists them in strictly ascending order, and its
size, emptiness, inclusion, disjointness and equality are those of sets. -/
theorem cluster_is_set (a b : Construction) :
    a.cluster.words.getLast? ≠ some 0 ∧
      (∀ bit, a.cluster.contains bit = true ↔ bit ∈ a.elements) ∧
      a.cluster.toList.Pairwise (· < ·) ∧
      (∀ bit, bit ∈ a.cluster.toList ↔ bit ∈ a.elements) ∧
      a.cluster.size = a.elements.card ∧
      (a.cluster.isEmpty = true ↔ a.elements = ∅) ∧
      (a.cluster.containsAll b.cluster = true ↔ b.elements ⊆ a.elements) ∧
      (a.cluster.isDisjoint b.cluster = true ↔ Disjoint a.elements b.elements) ∧
      (a.cluster = b.cluster ↔ a.elements = b.elements) := by
  refine ⟨trimmed_iff_getLast?.1 a.trimmed_cluster, a.contains_cluster, pairwise_toList _,
    fun bit => ?_, ?_, ?_, ?_, ?_, ?_⟩
  · rw [mem_toList, contains_cluster]
  · rw [size, ← toFinset_toList, List.toFinset_card_of_nodup (pairwise_toList _).nodup]
  · rw [a.trimmed_cluster.isEmpty_iff, Finset.eq_empty_iff_forall_notMem]
    simp only [← contains_cluster, Bool.not_eq_true]
  · rw [containsAll_iff, b.trimmed_cluster.below_iff]
    simp only [contains_cluster]
    rfl
  · rw [isDisjoint_iff, Finset.disjoint_left]
    simp only [← contains_cluster, Bool.not_eq_true]
  · rw [a.trimmed_cluster.eq_iff b.trimmed_cluster, Finset.ext_iff]
    exact forall_congr' fun bit => by rw [Bool.eq_iff_iff, contains_cluster, contains_cluster]

end Construction

end Cluster

end SaturationCore
