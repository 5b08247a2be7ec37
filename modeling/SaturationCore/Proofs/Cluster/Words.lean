/-
# Clusters as words

A set kept in words is known by how many words it has and by its elements, and without zero words at
the end by its elements alone. So it is enough to know of every operation what becomes an element and
how many words there are, or that no zero word is left at the end.

The operations on clusters change masks in one go. Here they are the operations on words: the words
of what they make are what is made of the words, also for clusters that end in zero words. A cluster
put together from nothing, word by word, is therefore a finite set.
-/
import Mathlib.Data.List.Sort
import SaturationCore.Cluster.Words
import SaturationCore.Proofs.Cluster.Construction

namespace SaturationCore

namespace WordSet

variable {s t : WordSet} {words long short : List (BitVec 64)} {i : Nat}

/-! ## Bits of words -/

theorem and_bit_ne_zero (word : BitVec 64) {bit : Nat} (inside : bit < 64) :
    (word &&& 1#64 <<< bit != 0#64) = word.getLsbD bit := by
  have single : BitVec.twoPow 64 bit ≠ 0#64 := by
    intro zero
    have set := congrArg (fun word => word.getLsbD bit) zero
    simp [inside] at set
  rw [← BitVec.twoPow_eq, BitVec.and_twoPow]
  cases word.getLsbD bit <;> simp [single]

theorem getLsbD_bitOf (bit other : Nat) :
    (bitOf bit).getLsbD (other % 64) = decide (bit % 64 = other % 64) := by
  rw [bitOf, ← BitVec.twoPow_eq, BitVec.getLsbD_twoPow, decide_eq_true (Nat.mod_lt bit (by decide)),
    Bool.true_and]

/-- The word at a place, zero behind the last one. -/
def wordAt (words : List (BitVec 64)) (i : Nat) : BitVec 64 :=
  words[i]?.getD 0#64

theorem wordAt_of_le (beyond : words.length ≤ i) : wordAt words i = 0#64 := by
  rw [wordAt, List.getElem?_eq_none beyond]
  rfl

theorem contains_eq (s : WordSet) (bit : Nat) :
    s.contains bit = (wordAt s.words (bit / 64)).getLsbD (bit % 64) := by
  rw [contains, wordAt]
  cases s.words[bit / 64]? with
  | none => exact BitVec.getLsbD_zero.symm
  | some word => exact and_bit_ne_zero word (Nat.mod_lt bit (by decide))

/-- An element lies in one of the words. -/
theorem div_lt_length_of_contains {bit : Nat} (held : s.contains bit = true) :
    bit / 64 < s.words.length := by
  by_contra beyond
  rw [contains_eq, wordAt_of_le (Nat.le_of_not_lt beyond), BitVec.getLsbD_zero] at held
  cases held

/-- Every bit of a word tells of a number. -/
theorem getLsbD_wordAt (s : WordSet) (i : Nat) {b : Nat} (small : b < 64) :
    (wordAt s.words i).getLsbD b = s.contains (64 * i + b) := by
  have place : (64 * i + b) / 64 = i := by omega
  have offset : (64 * i + b) % 64 = b := by omega
  rw [contains_eq, place, offset]

/-- Sets that have the same elements have the same words. -/
theorem wordAt_eq_of_contains (same : ∀ bit, s.contains bit = t.contains bit) (i : Nat) :
    wordAt s.words i = wordAt t.words i :=
  BitVec.eq_of_getLsbD_eq fun b small => by
    rw [getLsbD_wordAt s i small, getLsbD_wordAt t i small, same]

/-- The number of words and the elements are all there is to a set kept in words. -/
theorem eq_of_length_eq (length : s.words.length = t.words.length)
    (same : ∀ bit, s.contains bit = t.contains bit) : s = t := by
  have places := wordAt_eq_of_contains same
  obtain ⟨words⟩ := s
  obtain ⟨words'⟩ := t
  rw [mk.injEq]
  apply List.ext_getElem length
  intro i inside inside'
  have key := places i
  rwa [wordAt, wordAt, List.getElem?_eq_getElem inside, List.getElem?_eq_getElem inside'] at key

/-! ## Dropping zero words -/

theorem wordAt_trim (words : List (BitVec 64)) (i : Nat) :
    wordAt (trim words) i = wordAt words i := by
  induction words using trim.induct with
  | case1 words zero ih =>
      rw [trim, if_pos zero, ih]
      -- The word that is dropped was zero.
      obtain ⟨front, rfl⟩ := List.getLast?_eq_some_iff.1 zero
      rw [List.dropLast_concat, wordAt, wordAt, List.getElem?_append]
      split
      · rfl
      · rename_i beyond
        rw [List.getElem?_eq_none (Nat.le_of_not_lt beyond)]
        cases i - front.length <;> rfl
  | case2 words kept => rw [trim, if_neg kept]

theorem getLast?_trim (words : List (BitVec 64)) : (trim words).getLast? ≠ some 0#64 := by
  induction words using trim.induct with
  | case1 words zero ih => rwa [trim, if_pos zero]
  | case2 words kept => rwa [trim, if_neg kept]

/-- A set whose last word is not zero has no more words than one with the same elements. -/
theorem length_le_of_contains (last : s.words.getLast? ≠ some 0#64)
    (same : ∀ bit, s.contains bit = t.contains bit) : s.words.length ≤ t.words.length := by
  by_contra more
  have inside : s.words.length - 1 < s.words.length := by omega
  have zero : wordAt s.words (s.words.length - 1) = 0#64 := by
    rw [wordAt_eq_of_contains same, wordAt_of_le (by omega)]
  rw [wordAt, List.getElem?_eq_getElem inside] at zero
  rw [List.getLast?_eq_getElem?, List.getElem?_eq_getElem inside] at last
  exact last (congrArg some zero)

/-- Without zero words at the end, the elements are all there is to a set kept in words. -/
theorem eq_of_contains (last : s.words.getLast? ≠ some 0#64) (last' : t.words.getLast? ≠ some 0#64)
    (same : ∀ bit, s.contains bit = t.contains bit) : s = t :=
  eq_of_length_eq (Nat.le_antisymm (length_le_of_contains last same)
    (length_le_of_contains last' fun bit => (same bit).symm)) same

/-! ## The elements of what the operations make -/

theorem wordAt_modify (change : BitVec 64 → BitVec 64) (inside : i < words.length) (j : Nat) :
    wordAt (words.modify i change) j = if i = j then change (wordAt words j) else wordAt words j := by
  rw [wordAt, wordAt, List.getElem?_modify]
  by_cases here : i = j
  · subst here
    rw [if_pos rfl, List.getElem?_eq_getElem inside]
    simp
  · simp [here]

theorem wordAt_rightpad (words : List (BitVec 64)) (n i : Nat) :
    wordAt (words.rightpad n 0#64) i = wordAt words i := by
  rw [wordAt, wordAt, List.rightpad, List.getElem?_append]
  split
  · rfl
  · rename_i beyond
    rw [List.getElem?_eq_none (Nat.le_of_not_lt beyond), List.getElem?_replicate]
    split <;> rfl

theorem length_overlay (combine : BitVec 64 → BitVec 64 → BitVec 64)
    (long short : List (BitVec 64)) : (overlay combine long short).length = long.length := by
  induction long, short using overlay.induct with
  | case1 word long other short ih => simp [overlay, ih]
  | case2 long => cases long <;> rfl
  | case3 short _ => simp [overlay]

/-- Words that one side lacks are combined like zero words, as long as they go into the result. -/
theorem wordAt_overlay {combine : BitVec 64 → BitVec 64 → BitVec 64}
    (neutral : ∀ word, combine word 0#64 = word) (long short : List (BitVec 64)) (i : Nat) :
    wordAt (overlay combine long short) i =
      if i < long.length then combine (wordAt long i) (wordAt short i) else 0#64 := by
  split
  · rename_i inside
    induction long, short using overlay.induct generalizing i with
    | case1 word long other short ih =>
        cases i with
        | zero => rfl
        | succ i => exact ih i (Nat.lt_of_succ_lt_succ inside)
    | case2 long =>
        have alone : overlay combine long [] = long := by cases long <;> rfl
        rw [alone, @wordAt_of_le [] _ (Nat.zero_le i), neutral]
    | case3 => cases inside
  · rename_i beyond
    exact wordAt_of_le (by rw [length_overlay]; omega)

theorem length_insert (s : WordSet) (bit : Nat) :
    (s.insert bit).words.length = max s.words.length (bit / 64 + 1) := by
  rw [insert, List.length_modify, List.length_rightpad, Nat.max_comm]

theorem contains_insert (s : WordSet) (bit other : Nat) :
    (s.insert bit).contains other = (s.contains other || decide (bit = other)) := by
  have inside : bit / 64 < (s.words.rightpad (bit / 64 + 1) 0#64).length := by
    rw [List.length_rightpad]
    omega
  rw [contains_eq, contains_eq, insert, wordAt_modify _ inside, wordAt_rightpad]
  split
  · rename_i place
    have same : bit % 64 = other % 64 ↔ bit = other := by omega
    rw [BitVec.getLsbD_or, getLsbD_bitOf, decide_eq_decide.2 same]
  · rename_i place
    have apart : bit ≠ other := fun same => place (same ▸ rfl)
    rw [decide_eq_false apart, Bool.or_false]

theorem contains_trim (words : List (BitVec 64)) (bit : Nat) :
    contains ⟨trim words⟩ bit = contains ⟨words⟩ bit := by
  rw [contains_eq, contains_eq, wordAt_trim]

theorem contains_remove (s : WordSet) (bit other : Nat) :
    (s.remove bit).contains other = (s.contains other && decide (bit ≠ other)) := by
  by_cases inside : bit / 64 < s.words.length
  · rw [remove, if_pos inside, contains_trim, contains_eq, contains_eq, wordAt_modify _ inside]
    split
    · rename_i place
      have apart : ¬bit % 64 = other % 64 ↔ bit ≠ other := by omega
      rw [BitVec.getLsbD_and, BitVec.getLsbD_not, getLsbD_bitOf,
        decide_eq_true (Nat.mod_lt other (by decide)), Bool.true_and, ← decide_not,
        decide_eq_decide.2 apart]
    · rename_i place
      have apart : bit ≠ other := fun same => place (same ▸ rfl)
      rw [decide_eq_true apart, Bool.and_true]
  · rw [remove, if_neg inside]
    cases held : s.contains other with
    | false => rfl
    | true =>
        have apart : bit ≠ other := fun same => inside (same ▸ div_lt_length_of_contains held)
        rw [decide_eq_true apart, Bool.and_true]

theorem length_union (s t : WordSet) :
    (s.union t).words.length = max s.words.length t.words.length := by
  rw [union]
  split
  · rw [length_overlay]
    omega
  · rw [length_overlay]
    omega

theorem contains_overlay_or (fits : short.length ≤ long.length) (bit : Nat) :
    contains ⟨overlay (· ||| ·) long short⟩ bit = (contains ⟨long⟩ bit || contains ⟨short⟩ bit) := by
  rw [contains_eq, contains_eq, contains_eq, wordAt_overlay fun _ => BitVec.or_zero]
  split
  · rw [BitVec.getLsbD_or]
  · rename_i beyond
    rw [@wordAt_of_le long _ (by omega), @wordAt_of_le short _ (by omega),
      BitVec.getLsbD_zero]
    rfl

theorem contains_union (s t : WordSet) (bit : Nat) :
    (s.union t).contains bit = (s.contains bit || t.contains bit) := by
  rw [union]
  split
  · rename_i fits
    exact contains_overlay_or fits bit
  · rename_i more
    rw [contains_overlay_or (by omega), Bool.or_comm]

theorem contains_intersection (s t : WordSet) (bit : Nat) :
    (s.intersection t).contains bit = (s.contains bit && t.contains bit) := by
  rw [intersection, contains_trim, contains_eq, contains_eq, contains_eq, ← BitVec.getLsbD_and]
  congr 1
  rw [wordAt, wordAt, wordAt, List.getElem?_zipWith]
  cases s.words[bit / 64]? <;> cases t.words[bit / 64]? <;> simp

theorem contains_difference (s t : WordSet) (bit : Nat) :
    (s.difference t).contains bit = (s.contains bit && !t.contains bit) := by
  have neutral (word : BitVec 64) : word &&& ~~~0#64 = word := by
    rw [BitVec.not_zero, BitVec.and_allOnes]
  have small : bit % 64 < 64 := Nat.mod_lt bit (by decide)
  rw [difference, contains_trim, contains_eq, contains_eq, contains_eq, wordAt_overlay neutral]
  split
  · rw [BitVec.getLsbD_and, BitVec.getLsbD_not, decide_eq_true small, Bool.true_and]
  · rename_i beyond
    rw [@wordAt_of_le s.words _ (by omega), BitVec.getLsbD_zero, Bool.false_and]

/-! ## What is asked of words -/

/-- Words side by side pass a test when the words at every place do that both sides have. -/
theorem all_zip {test : BitVec 64 × BitVec 64 → Bool} :
    ((long.zip short).all test) = true ↔
      ∀ i, i < long.length → i < short.length → test (wordAt long i, wordAt short i) = true := by
  rw [List.all_eq_true]
  constructor
  · intro each i inside inside'
    apply each
    rw [wordAt, wordAt, List.getElem?_eq_getElem inside, List.getElem?_eq_getElem inside',
      List.mem_iff_getElem?]
    exact ⟨i, List.getElem?_zip_eq_some.2 ⟨List.getElem?_eq_getElem inside,
      List.getElem?_eq_getElem inside'⟩⟩
  · intro each pair found
    obtain ⟨i, found⟩ := List.mem_iff_getElem?.1 found
    obtain ⟨word, other⟩ := List.getElem?_zip_eq_some.1 found
    have key := each i (List.getElem?_eq_some_iff.1 word).1 (List.getElem?_eq_some_iff.1 other).1
    rwa [wordAt, wordAt, word, other] at key

/-- A word of a set shares no bit with another word when no element of the set has its bit in there. -/
theorem and_beq_zero_iff (s : WordSet) (i : Nat) (word : BitVec 64) :
    (wordAt s.words i &&& word == 0#64) = true ↔
      ∀ b < 64, s.contains (64 * i + b) = true → word.getLsbD b = false := by
  rw [beq_iff_eq]
  constructor
  · intro none b small held
    have unset : (wordAt s.words i &&& word).getLsbD b = false := by
      rw [none, BitVec.getLsbD_zero]
    rwa [BitVec.getLsbD_and, getLsbD_wordAt s i small, held, Bool.true_and] at unset
  · intro apart
    apply BitVec.eq_of_getLsbD_eq
    intro b small
    rw [BitVec.getLsbD_and, getLsbD_wordAt s i small, BitVec.getLsbD_zero]
    cases held : s.contains (64 * i + b) with
    | false => rfl
    | true => exact apart b small held

theorem containsAll_iff : s.containsAll t = true ↔
    t.words.length ≤ s.words.length ∧ ∀ bit, t.contains bit = true → s.contains bit = true := by
  rw [containsAll, Bool.and_eq_true, decide_eq_true_eq, all_zip]
  simp only [and_beq_zero_iff]
  refine and_congr_right fun fits => ?_
  constructor
  · intro each bit held
    have inside := div_lt_length_of_contains held
    have small : bit % 64 < 64 := Nat.mod_lt bit (by decide)
    have unset := each (bit / 64) inside (by omega) (bit % 64) small (by rwa [Nat.div_add_mod])
    rwa [BitVec.getLsbD_not, decide_eq_true small, Bool.true_and, Bool.not_eq_false',
      ← contains_eq] at unset
  · intro fewer i _ _ b small held
    rw [BitVec.getLsbD_not, getLsbD_wordAt s i small, fewer _ held, Bool.not_true, Bool.and_false]

theorem isDisjoint_iff :
    s.isDisjoint t = true ↔ ∀ bit, s.contains bit = true → t.contains bit = false := by
  rw [isDisjoint, all_zip]
  simp only [and_beq_zero_iff]
  constructor
  · intro each bit held
    by_cases inside : bit / 64 < t.words.length
    · rw [contains_eq]
      exact each (bit / 64) (div_lt_length_of_contains held) inside (bit % 64)
        (Nat.mod_lt bit (by decide)) (by rwa [Nat.div_add_mod])
    · rw [contains_eq, wordAt_of_le (Nat.le_of_not_lt inside), BitVec.getLsbD_zero]
  · intro apart i _ _ b small held
    rw [getLsbD_wordAt t i small, apart _ held]

theorem mem_toList {bit : Nat} : bit ∈ s.toList ↔ s.contains bit = true := by
  rw [toList, List.mem_flatMap]
  constructor
  · rintro ⟨⟨word, i⟩, here, inside⟩
    rw [List.mem_zipIdx_iff_getElem?] at here
    simp only [List.mem_map, List.mem_filter, List.mem_range] at inside
    obtain ⟨b, ⟨small, set⟩, rfl⟩ := inside
    rw [and_bit_ne_zero word small] at set
    rw [Nat.mul_comm i 64, ← getLsbD_wordAt s i small, wordAt, here]
    exact set
  · intro held
    have inside := div_lt_length_of_contains held
    have small : bit % 64 < 64 := Nat.mod_lt bit (by decide)
    refine ⟨(s.words[bit / 64], bit / 64), ?_, ?_⟩
    · rw [List.mem_zipIdx_iff_getElem?, List.getElem?_eq_getElem inside]
    · simp only [List.mem_map, List.mem_filter, List.mem_range]
      refine ⟨bit % 64, ⟨small, ?_⟩, by omega⟩
      rw [contains_eq, wordAt, List.getElem?_eq_getElem inside] at held
      rw [and_bit_ne_zero _ small]
      exact held

theorem pairwise_toList (s : WordSet) : s.toList.Pairwise (· < ·) := by
  rw [toList, List.pairwise_flatMap]
  constructor
  · rintro ⟨word, i⟩ _
    rw [List.pairwise_map]
    refine (List.pairwise_lt_range.filter _).imp ?_
    intro b b' below
    omega
  · -- The places of the words ascend, and no word reaches into the next.
    have places : (s.words.zipIdx.map Prod.snd).Pairwise (· < ·) := by
      rw [List.zipIdx_map_snd, ← List.range_eq_range']
      exact List.pairwise_lt_range
    refine (List.pairwise_map.1 places).imp ?_
    rintro ⟨_, i⟩ ⟨_, j⟩ below bit inside bit' inside'
    simp only [List.mem_map, List.mem_filter, List.mem_range] at inside inside'
    obtain ⟨b, ⟨small, -⟩, rfl⟩ := inside
    obtain ⟨b', -, rfl⟩ := inside'
    omega

theorem countP_getLsbD (word : BitVec 64) (n : Nat) :
    word.cpopNatRec n 0 = (List.range n).countP word.getLsbD := by
  induction n with
  | zero => rfl
  | succ n ih =>
      rw [BitVec.cpopNatRec_succ, BitVec.cpopNatRec_eq, ih, List.range_succ, List.countP_append,
        List.countP_singleton]
      cases word.getLsbD n <;> rfl

/-- The bits are counted as they are listed. -/
theorem size_eq (s : WordSet) : s.size = s.toList.length := by
  have row (word : BitVec 64) (i : Nat) : word.cpop.toNat =
      (((List.range 64).filter fun bit => word &&& 1#64 <<< bit != 0#64).map
        fun bit => i * 64 + bit).length := by
    rw [List.length_map, ← List.countP_eq_length_filter, BitVec.toNat_cpop, countP_getLsbD]
    apply List.countP_congr
    intro bit inside
    rw [and_bit_ne_zero word (List.mem_range.1 inside)]
  have words : s.words = s.words.zipIdx.map Prod.fst := (List.zipIdx_map_fst 0 s.words).symm
  have sum : s.size = (s.words.map fun word => word.cpop.toNat).sum := by
    rw [List.sum_eq_foldr, List.foldr_map]
    rfl
  rw [sum, toList, List.length_flatMap]
  conv_lhs => rw [words]
  rw [List.map_map]
  congr 1
  apply List.map_congr_left
  rintro ⟨word, i⟩ _
  exact row word i

end WordSet

namespace Cluster

variable {c d : Cluster}

/-! ## The words of a cluster -/

theorem length_packed (c : Cluster) : c.packed.words.length = c.width := by
  rw [packed, List.length_map, length_words]

theorem contains_packed (c : Cluster) (bit : Nat) : c.packed.contains bit = c.contains bit := by
  have small : bit % 64 < 64 := Nat.mod_lt bit (by decide)
  by_cases inside : bit / 64 < c.width
  · have word : WordSet.wordAt c.packed.words (bit / 64) =
        BitVec.ofNat 64 (c.mask >>> (64 * (bit / 64)) % 1 <<< 64) := by
      rw [WordSet.wordAt, packed, List.getElem?_map, words, wordsOf_eq, List.getElem?_map,
        List.getElem?_range inside]
      rfl
    rw [WordSet.contains_eq, word, BitVec.getLsbD_ofNat, Nat.one_shiftLeft, Nat.testBit_mod_two_pow,
      Nat.testBit_shiftRight, decide_eq_true small, Bool.true_and, Bool.true_and, Nat.div_add_mod,
      contains]
  · have beyond (s : Bool) (held : s = true → bit / 64 < c.width) : s = false := by
      cases s with
      | false => rfl
      | true => exact absurd (held rfl) inside
    rw [beyond _ fun held => length_packed c ▸ WordSet.div_lt_length_of_contains held,
      beyond _ div_lt_width_of_contains]

theorem trimmed_iff_packed : c.Trimmed ↔ c.packed.words.getLast? ≠ some 0#64 := by
  rw [trimmed_iff_getLast?, packed, List.getLast?_map, not_iff_not, Option.map_eq_some_iff]
  constructor
  · exact fun zero => ⟨0, zero, rfl⟩
  · rintro ⟨word, last, zero⟩
    have small := lt_of_mem_words (List.mem_of_getLast? last)
    have value := congrArg BitVec.toNat zero
    rw [BitVec.toNat_ofNat, Nat.mod_eq_of_lt (by rwa [Nat.one_shiftLeft] at small)] at value
    rw [last, value]
    rfl

theorem packed_inj : c.packed = d.packed ↔ c = d := by
  constructor
  · intro same
    refine eq_iff.2 ⟨?_, fun bit => ?_⟩
    · rw [← length_packed, same, length_packed]
    · rw [← contains_packed, same, contains_packed]
  · exact congrArg packed

/-- A trimmed cluster is written in the words without zero words at the end that have its elements. -/
theorem Trimmed.packed_eq {s : WordSet} (trimmed : c.Trimmed) (last : s.words.getLast? ≠ some 0#64)
    (same : ∀ bit, c.contains bit = s.contains bit) : c.packed = s :=
  WordSet.eq_of_contains (trimmed_iff_packed.1 trimmed) last fun bit => by rw [contains_packed, same]

theorem packed_empty : empty.packed = .empty := by
  rw [packed, words, wordsOf_eq]
  rfl

theorem packed_insert (c : Cluster) (bit : Nat) : (c.insert bit).packed = c.packed.insert bit := by
  apply WordSet.eq_of_length_eq
  · rw [length_packed, WordSet.length_insert, length_packed]
    rfl
  · intro other
    rw [contains_packed, contains_insert, WordSet.contains_insert, contains_packed]

theorem packed_ofList (bits : List Nat) : (ofList bits).packed = .ofList bits := by
  rw [ofList, WordSet.ofList, ← packed_empty]
  generalize empty = c
  induction bits generalizing c with
  | nil => rfl
  | cons bit bits ih => rw [List.foldl_cons, List.foldl_cons, ih, packed_insert]

theorem packed_remove (c : Cluster) (bit : Nat) : (c.remove bit).packed = c.packed.remove bit := by
  have same (other : Nat) : (c.remove bit).contains other = (c.packed.remove bit).contains other := by
    rw [contains_remove, WordSet.contains_remove, contains_packed]
  by_cases inside : bit / 64 < c.width
  · apply Trimmed.packed_eq _ _ same
    · rw [remove, if_pos inside]
      exact .ofMask _
    · rw [WordSet.remove, if_pos (by rwa [length_packed])]
      exact WordSet.getLast?_trim _
  · rw [remove, if_neg inside, WordSet.remove, if_neg (by rwa [length_packed])]

theorem packed_union (c d : Cluster) : (c.union d).packed = c.packed.union d.packed := by
  apply WordSet.eq_of_length_eq
  · rw [length_packed, WordSet.length_union, length_packed, length_packed]
    rfl
  · intro bit
    rw [contains_packed, contains_union, WordSet.contains_union, contains_packed, contains_packed]

theorem packed_intersection (c d : Cluster) :
    (c.intersection d).packed = c.packed.intersection d.packed :=
  (Trimmed.intersection c d).packed_eq (WordSet.getLast?_trim _) fun bit => by
    rw [contains_intersection, WordSet.contains_intersection, contains_packed, contains_packed]

theorem packed_difference (c d : Cluster) :
    (c.difference d).packed = c.packed.difference d.packed :=
  (Trimmed.difference c d).packed_eq (WordSet.getLast?_trim _) fun bit => by
    rw [contains_difference, WordSet.contains_difference, contains_packed, contains_packed]

theorem isEmpty_packed (c : Cluster) : c.packed.isEmpty = c.isEmpty := by
  rw [WordSet.isEmpty, isEmpty, ← length_packed]
  cases c.packed.words <;> rfl

theorem containsAll_packed (c d : Cluster) : c.packed.containsAll d.packed = c.containsAll d := by
  rw [Bool.eq_iff_iff, WordSet.containsAll_iff, containsAll_iff, length_packed, length_packed]
  simp only [contains_packed]
  rfl

theorem isDisjoint_packed (c d : Cluster) : c.packed.isDisjoint d.packed = c.isDisjoint d := by
  rw [Bool.eq_iff_iff, WordSet.isDisjoint_iff, isDisjoint_iff]
  simp only [contains_packed]

theorem toList_packed (c : Cluster) : c.packed.toList = c.toList :=
  (WordSet.pairwise_toList _).eq_of_mem_iff (pairwise_toList _) fun bit => by
    rw [WordSet.mem_toList, contains_packed, mem_toList]

theorem size_packed (c : Cluster) : c.packed.size = c.size := by
  rw [WordSet.size_eq, toList_packed, size]

namespace Construction

/-- The set that is put together in words. -/
def wordSet : Construction → WordSet
  | empty => .empty
  | singleton bit => .singleton bit
  | ofList bits => .ofList bits
  | insert a bit => a.wordSet.insert bit
  | remove a bit => a.wordSet.remove bit
  | union a b => a.wordSet.union b.wordSet
  | intersection a b => a.wordSet.intersection b.wordSet
  | difference a b => a.wordSet.difference b.wordSet

/-- What is put together word by word are the words of what is put together from masks. -/
theorem wordSet_eq (a : Construction) : a.wordSet = a.cluster.packed := by
  induction a with
  | empty => exact packed_empty.symm
  | singleton bit =>
      rw [wordSet, cluster, Cluster.singleton, packed_insert, packed_empty, WordSet.singleton]
  | ofList bits => exact (packed_ofList bits).symm
  | insert a bit ih => rw [wordSet, ih, cluster, packed_insert]
  | remove a bit ih => rw [wordSet, ih, cluster, packed_remove]
  | union a b ih ih' => rw [wordSet, ih, ih', cluster, packed_union]
  | intersection a b ih ih' => rw [wordSet, ih, ih', cluster, packed_intersection]
  | difference a b ih ih' => rw [wordSet, ih, ih', cluster, packed_difference]

/-- What is put together word by word never ends in a zero word and is the set that was meant: it has
the elements of that set and lists them in strictly ascending order, and its size, emptiness,
inclusion, disjointness and equality are those of sets. It consists of the words of the cluster that
is put together from masks in the same way. -/
theorem wordSet_is_set (a b : Construction) :
    a.wordSet = a.cluster.packed ∧
      a.wordSet.words.getLast? ≠ some 0#64 ∧
      (∀ bit, a.wordSet.contains bit = true ↔ bit ∈ a.elements) ∧
      a.wordSet.toList.Pairwise (· < ·) ∧
      (∀ bit, bit ∈ a.wordSet.toList ↔ bit ∈ a.elements) ∧
      a.wordSet.size = a.elements.card ∧
      (a.wordSet.isEmpty = true ↔ a.elements = ∅) ∧
      (a.wordSet.containsAll b.wordSet = true ↔ b.elements ⊆ a.elements) ∧
      (a.wordSet.isDisjoint b.wordSet = true ↔ Disjoint a.elements b.elements) ∧
      (a.wordSet = b.wordSet ↔ a.elements = b.elements) := by
  refine ⟨a.wordSet_eq, ?_⟩
  rw [wordSet_eq, wordSet_eq, ← trimmed_iff_packed, toList_packed, size_packed, isEmpty_packed,
    containsAll_packed, isDisjoint_packed, packed_inj, trimmed_iff_getLast?]
  simp only [contains_packed]
  exact cluster_is_set a b

end Construction

end Cluster

end SaturationCore
