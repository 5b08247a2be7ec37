/-
# Clusters written down and read back

A cluster is written as its words, and a document is read as the words that it shows. So
every cluster is read back as it was.

A document may show a zero word at the end, which no operation on sets would have left there.
The cluster read from it is no longer known by its elements: it differs from the set with the
same elements. When no document does so, trimmed clusters go into every computation and trimmed
clusters come out of it.
-/
import Mathlib.Data.Set.Insert
import SaturationCore.Interchange
import SaturationCore.Proofs.Cluster

namespace SaturationCore

namespace Json

/-- A sequence of documents is read item by item. -/
theorem listOf?_list {α : Type} {form : Json → Option α} {write : α → Json} {items : List α}
    (read : ∀ a ∈ items, form (write a) = some a) : (list write items).listOf? form = some items := by
  show (items.map write).mapM form = some items
  induction items with
  | nil => rfl
  | cons a items ih =>
      rw [List.map_cons, List.mapM_cons, read a List.mem_cons_self,
        ih fun b inside => read b (List.mem_cons_of_mem _ inside)]
      rfl

theorem natBelow?_nat {bound n : Nat} (lt : n < bound) : natBelow? bound (nat n) = some n := by
  rw [nat, natBelow?, if_pos ⟨Int.natCast_nonneg n, Int.ofNat_lt.2 lt⟩, Int.toNat_natCast]

end Json

namespace Cluster

variable {c d : Cluster}

/-! ## Words of a mask -/

/-- Every word has 64 bits of the mask, the first word the lowest ones. -/
theorem wordsOf_eq (count mask : Nat) :
    wordsOf count mask = (List.range count).map fun i => mask >>> (64 * i) % 1 <<< 64 := by
  induction count, mask using wordsOf.induct with
  | case1 mask => rw [wordsOf, if_pos rfl, List.range_zero, List.map_nil]
  | case2 mask =>
      have low : mask &&& 0xFFFFFFFFFFFFFFFF = mask % 1 <<< 64 :=
        Nat.and_two_pow_sub_one_eq_mod mask 64
      rw [wordsOf, if_neg Nat.one_ne_zero, if_pos rfl, low]
      rfl
  | case3 count mask some more low ih ih' =>
      have split : count = low + (count - low) := by omega
      rw [wordsOf, if_neg some, if_neg more]
      show wordsOf low (mask % 1 <<< (64 * low)) ++ wordsOf (count - low) (mask >>> (64 * low)) = _
      rw [ih, ih']
      conv_rhs => rw [split, List.range_add, List.map_append, List.map_map]
      congr 1
      · apply List.map_congr_left
        intro i inside
        rw [List.mem_range] at inside
        apply Nat.eq_of_testBit_eq
        intro bit
        have within : bit < 64 → 64 * i + bit < 64 * low := by omega
        simp only [Nat.one_shiftLeft, Nat.testBit_mod_two_pow, Nat.testBit_shiftRight]
        by_cases small : bit < 64
        · simp only [within small, decide_true, Bool.true_and]
        · simp only [small, decide_false, Bool.false_and]
      · apply List.map_congr_left
        intro i _
        rw [Function.comp_apply, Nat.mul_add, Nat.shiftRight_add]

theorem wordsOf_succ (count mask : Nat) :
    wordsOf (count + 1) mask = mask % 1 <<< 64 :: wordsOf count (mask >>> 64) := by
  rw [wordsOf_eq, wordsOf_eq, List.range_succ_eq_map, List.map_cons, List.map_map]
  congr 1
  apply List.map_congr_left
  intro i _
  rw [Function.comp_apply, ← Nat.shiftRight_add, Nat.mul_succ, Nat.add_comm]

theorem length_words (c : Cluster) : c.words.length = c.width := by
  rw [words, wordsOf_eq, List.length_map, List.length_range]

theorem lt_of_mem_words {word : Nat} (inside : word ∈ c.words) : word < 1 <<< 64 := by
  rw [words, wordsOf_eq, List.mem_map] at inside
  obtain ⟨i, _, rfl⟩ := inside
  exact Nat.mod_lt _ (by decide)

theorem maskOfWords_wordsOf (count mask : Nat) :
    maskOfWords (wordsOf count mask) = mask % 1 <<< (64 * count) := by
  have base : 0x10000000000000000 = 1 <<< 64 := rfl
  induction count generalizing mask with
  | zero =>
      rw [wordsOf_eq]
      exact (Nat.mod_one mask).symm
  | succ count ih =>
      rw [wordsOf_succ, maskOfWords, ih, base, Nat.mod_mod, Nat.mul_succ, Nat.add_comm (64 * count)]
      simp only [Nat.one_shiftLeft, Nat.shiftRight_eq_div_pow]
      rw [Nat.pow_add, Nat.mod_mul]

/-- The words of a cluster make up the cluster. -/
theorem ofWords_words (c : Cluster) : ofWords c.words = c := by
  rw [eq_iff]
  refine ⟨length_words c, fun bit => ?_⟩
  show (maskOfWords (wordsOf c.width c.mask)).testBit bit = c.mask.testBit bit
  rw [maskOfWords_wordsOf, Nat.mod_eq_of_lt c.fits]

/-- A cluster is trimmed when its last word, if any, is not zero. -/
theorem trimmed_iff_getLast? : c.Trimmed ↔ c.words.getLast? ≠ some 0 := by
  obtain ⟨mask, width, fits⟩ := c
  show width = widthOf mask ↔ (wordsOf width mask).getLast? ≠ some 0
  have least : widthOf mask ≤ width := widthOf_le fits
  cases width with
  | zero =>
      rw [wordsOf_eq, Nat.le_zero.1 least]
      simp
  | succ width =>
      have small : mask >>> (64 * width) < 1 <<< 64 := by
        rw [Nat.one_shiftLeft, Nat.mul_succ, Nat.pow_add] at fits
        rw [Nat.one_shiftLeft, Nat.shiftRight_eq_div_pow]
        exact Nat.div_lt_of_lt_mul fits
      have last : (wordsOf (width + 1) mask).getLast? = some (mask >>> (64 * width)) := by
        rw [wordsOf_eq, List.range_succ, List.map_append, List.map_singleton, List.getLast?_concat,
          Nat.mod_eq_of_lt small]
      have zero : mask >>> (64 * width) = 0 ↔ widthOf mask ≤ width := by
        rw [Nat.shiftRight_eq_div_pow, Nat.div_eq_zero_iff_lt (Nat.two_pow_pos _),
          ← Nat.one_shiftLeft]
        exact ⟨widthOf_le, lt_shiftLeft_of_le (lt_shiftLeft_widthOf mask)⟩
      rw [last, Ne, Option.some_inj, zero]
      omega

/-! ## Documents -/

/-- Every cluster is read back as it was written down. -/
theorem ofJson?_toJson (c : Cluster) : Cluster.ofJson? c.toJson = some c := by
  have read : (Json.list Json.nat c.words).listOf? (Json.natBelow? (1 <<< 64)) = some c.words :=
    Json.listOf?_list fun word inside => Json.natBelow?_nat (lt_of_mem_words inside)
  show (((Json.list Json.nat c.words).listOf? (Json.natBelow? (1 <<< 64))).bind fun words =>
    some (ofWords words)) = some c
  rw [read, Option.bind_some, ofWords_words]

/-- The clusters that can be computed from those in some documents. -/
inductive Computed (documents : Set Json) : Cluster → Prop
  | read {j : Json} {c : Cluster} (shown : j ∈ documents) (accepted : Cluster.ofJson? j = some c) :
      Computed documents c
  | empty : Computed documents empty
  | singleton (bit : Nat) : Computed documents (singleton bit)
  | ofList (bits : List Nat) : Computed documents (ofList bits)
  | insert {c : Cluster} (computed : Computed documents c) (bit : Nat) :
      Computed documents (c.insert bit)
  | remove {c : Cluster} (computed : Computed documents c) (bit : Nat) :
      Computed documents (c.remove bit)
  | union {c d : Cluster} (computed : Computed documents c) (computed' : Computed documents d) :
      Computed documents (c.union d)
  | intersection {c d : Cluster} (computed : Computed documents c)
      (computed' : Computed documents d) : Computed documents (c.intersection d)
  | difference {c d : Cluster} (computed : Computed documents c)
      (computed' : Computed documents d) : Computed documents (c.difference d)

theorem Computed.trimmed {documents : Set Json}
    (read : ∀ j ∈ documents, ∀ e, Cluster.ofJson? j = some e → e.Trimmed)
    (computed : Computed documents c) : c.Trimmed := by
  induction computed with
  | read shown accepted => exact read _ shown _ accepted
  | empty => exact .empty
  | singleton bit => exact Trimmed.empty.insert bit
  | ofList bits => exact .ofList bits
  | insert _ bit ih => exact ih.insert bit
  | remove _ bit ih => exact ih.remove bit
  | union _ _ ih ih' => exact ih.union ih'
  | intersection => exact .intersection _ _
  | difference => exact .difference _ _

/-- Clusters computed from documents are written down and read back unchanged. If no document
ends in a zero word, neither do they, and then they are known by their elements: equality,
emptiness and inclusion are those of sets. -/
theorem computed_known_by_elements (documents : Set Json) (computed : Computed documents c)
    (computed' : Computed documents d) :
    Cluster.ofJson? c.toJson = some c ∧
      ((∀ j ∈ documents, ∀ e, Cluster.ofJson? j = some e → e.words.getLast? ≠ some 0) →
        c.words.getLast? ≠ some 0 ∧
        (c = d ↔ ∀ bit, c.contains bit = d.contains bit) ∧
        (c.isEmpty = true ↔ ∀ bit, c.contains bit = false) ∧
        (d.containsAll c = true ↔ ∀ bit, c.contains bit = true → d.contains bit = true)) := by
  refine ⟨ofJson?_toJson c, fun unpadded => ?_⟩
  have read (j : Json) (shown : j ∈ documents) (e : Cluster) (accepted : Cluster.ofJson? j = some e) :
      e.Trimmed :=
    trimmed_iff_getLast?.2 (unpadded j shown e accepted)
  have trimmed : c.Trimmed := computed.trimmed read
  have trimmed' : d.Trimmed := computed'.trimmed read
  refine ⟨trimmed_iff_getLast?.1 trimmed, trimmed.eq_iff trimmed', trimmed.isEmpty_iff, ?_⟩
  rw [containsAll_iff, trimmed.below_iff]

/-- The elements 0, 2 and 128 are read and the last one is removed, with two words. -/
theorem computed_known_by_elements_removed :
    Cluster.ofJson? ((ofWords [5, 0, 1]).remove 128).toJson = some ((ofWords [5, 0, 1]).remove 128) ∧
      ((ofWords [5, 0, 1]).remove 128).words.getLast? ≠ some 0 ∧
      ((ofWords [5, 0, 1]).remove 128 = ofList [2, 0] ↔
        ∀ bit, ((ofWords [5, 0, 1]).remove 128).contains bit = (ofList [2, 0]).contains bit) := by
  have shown : Computed {.record [("words", .list .nat [5, 0, 1])]} (ofWords [5, 0, 1]) :=
    .read rfl rfl
  have ⟨back, sets⟩ := computed_known_by_elements _ (shown.remove 128) (.ofList [2, 0])
  have ⟨last, equal, _⟩ := sets (by
    rintro j rfl e accepted
    obtain rfl : ofWords [5, 0, 1] = e := Option.some.inj accepted
    exact trimmed_iff_getLast?.1 (by decide))
  exact ⟨back, last, equal⟩

/-- A document may end in a zero word. The cluster in it has no element, yet it is not the empty
one, does not count as empty, and is not included in the empty one. -/
theorem computed_zero_word :
    Computed {.record [("words", .list .nat [0])]} (ofWords [0]) ∧
      (ofWords [0]).words.getLast? = some 0 ∧
      (∀ bit, (ofWords [0]).contains bit = empty.contains bit) ∧
      ofWords [0] ≠ empty ∧
      (ofWords [0]).isEmpty = false ∧
      empty.containsAll (ofWords [0]) = false := by
  refine ⟨.read rfl rfl, ?_, fun bit => ?_, by decide, rfl, rfl⟩
  · have untrimmed : ¬(ofWords [0]).Trimmed := by decide
    rwa [trimmed_iff_getLast?, not_not] at untrimmed
  · rfl

end Cluster

end SaturationCore
