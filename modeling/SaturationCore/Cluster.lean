/-
# Clusters

A cluster is a finite set of small numbers. It is stored as a bit mask together
with the number of 64-bit words that the mask is written in, and it carries a
proof that the mask fits into them. Removing elements gives up the words at the
end that have become zero, so for clusters made by these operations the mask
alone decides the width. A cluster read from outside keeps the words it came
with, and equality looks at the words.
-/

namespace SaturationCore

/-- A set of numbers as a mask of bits, written in `width` words of 64 bits. -/
structure Cluster where
  mask : Nat
  width : Nat
  fits : mask < 1 <<< (64 * width)
deriving DecidableEq, Repr

namespace Cluster

/-- The set without elements. -/
def empty : Cluster := ⟨0, 0, by decide⟩

/-- The number of words up to the last one that is not zero. -/
def widthOf (mask : Nat) : Nat :=
  if mask = 0 then 0 else mask.log2 / 64 + 1

theorem lt_shiftLeft_widthOf (mask : Nat) : mask < 1 <<< (64 * widthOf mask) := by
  rw [Nat.one_shiftLeft]
  unfold widthOf
  split
  · simp [*]
  · have bound : mask.log2 + 1 ≤ 64 * (mask.log2 / 64 + 1) := by omega
    exact Nat.lt_of_lt_of_le Nat.lt_log2_self (Nat.pow_le_pow_right (by decide) bound)

/-- A mask needs no more words than it fits into. -/
theorem widthOf_le {mask width : Nat} (h : mask < 1 <<< (64 * width)) : widthOf mask ≤ width := by
  rw [Nat.one_shiftLeft] at h
  unfold widthOf
  split
  · exact Nat.zero_le width
  · rename_i nonzero
    have bound : mask.log2 < 64 * width := (Nat.log2_lt nonzero).2 h
    omega

/-- The set with a given mask, written in as few words as it needs. -/
def ofMask (mask : Nat) : Cluster :=
  ⟨mask, widthOf mask, lt_shiftLeft_widthOf mask⟩

/-- A mask that fits into some words fits into more. -/
theorem lt_shiftLeft_of_le {mask width more : Nat} (h : mask < 1 <<< (64 * width))
    (le : width ≤ more) : mask < 1 <<< (64 * more) := by
  rw [Nat.one_shiftLeft] at *
  exact Nat.lt_of_lt_of_le h (Nat.pow_le_pow_right (by decide) (Nat.mul_le_mul_left 64 le))

/-- Masks that fit into some words do so together. -/
theorem or_lt_shiftLeft {mask other width : Nat} (h : mask < 1 <<< (64 * width))
    (h' : other < 1 <<< (64 * width)) : mask ||| other < 1 <<< (64 * width) := by
  rw [Nat.one_shiftLeft] at *
  exact Nat.or_lt_two_pow h h'

/-- Add an element. -/
def insert (c : Cluster) (bit : Nat) : Cluster where
  mask := c.mask ||| 1 <<< bit
  width := max c.width (bit / 64 + 1)
  fits := by
    apply or_lt_shiftLeft
    · exact lt_shiftLeft_of_le c.fits (Nat.le_max_left _ _)
    · rw [Nat.one_shiftLeft, Nat.one_shiftLeft]
      exact Nat.pow_lt_pow_right (by decide) (by omega)

/-- The set of one element. -/
def singleton (bit : Nat) : Cluster :=
  empty.insert bit

/-- The set of the elements of a list. -/
def ofList (bits : List Nat) : Cluster :=
  bits.foldl insert empty

/-- Whether a number is an element. -/
def contains (c : Cluster) (bit : Nat) : Bool :=
  c.mask.testBit bit

/-- Remove an element. A number beyond all words leaves them untouched. -/
def remove (c : Cluster) (bit : Nat) : Cluster :=
  if bit / 64 < c.width then
    ofMask (if c.contains bit then c.mask ^^^ 1 <<< bit else c.mask)
  else c

/-- Whether there are no words. -/
def isEmpty (c : Cluster) : Bool :=
  c.width == 0

/-- The elements of a mask in ascending order, in front of `rest`. -/
def bitsOnto (mask : Nat) (rest : List Nat) : List Nat :=
  if h : mask = 0 then rest
  else
    have : mask - 1 <<< mask.log2 < mask := by
      rw [Nat.one_shiftLeft]
      exact Nat.sub_lt (Nat.pos_of_ne_zero h) (Nat.two_pow_pos _)
    bitsOnto (mask - 1 <<< mask.log2) (mask.log2 :: rest)
termination_by mask

/-- The elements in ascending order. -/
def toList (c : Cluster) : List Nat :=
  bitsOnto c.mask []

/-- How many elements there are. -/
def size (c : Cluster) : Nat :=
  c.toList.length

/-- Whether all elements of `d` are in `c` too, and `d` is written in no more
words. -/
def containsAll (c d : Cluster) : Bool :=
  d.width ≤ c.width && d.mask &&& c.mask == d.mask

/-- Whether there is no common element. -/
def isDisjoint (c d : Cluster) : Bool :=
  c.mask &&& d.mask == 0

/-- The elements of either set. -/
def union (c d : Cluster) : Cluster where
  mask := c.mask ||| d.mask
  width := max c.width d.width
  fits := or_lt_shiftLeft (lt_shiftLeft_of_le c.fits (Nat.le_max_left _ _))
    (lt_shiftLeft_of_le d.fits (Nat.le_max_right _ _))

/-- The common elements. -/
def intersection (c d : Cluster) : Cluster :=
  ofMask (c.mask &&& d.mask)

/-- The elements of `c` that `d` lacks. -/
def difference (c d : Cluster) : Cluster :=
  ofMask (c.mask ^^^ (c.mask &&& d.mask))

@[simp]
theorem contains_empty (bit : Nat) : empty.contains bit = false := by
  simp [contains, empty]

theorem contains_insert (c : Cluster) (bit other : Nat) :
    (c.insert bit).contains other = (c.contains other || decide (bit = other)) := by
  simp [contains, insert, Nat.testBit_or, Nat.one_shiftLeft, Nat.testBit_two_pow]

theorem contains_union (c d : Cluster) (bit : Nat) :
    (c.union d).contains bit = (c.contains bit || d.contains bit) := by
  simp [contains, union]

theorem contains_intersection (c d : Cluster) (bit : Nat) :
    (c.intersection d).contains bit = (c.contains bit && d.contains bit) := by
  simp [contains, intersection, ofMask]

theorem contains_difference (c d : Cluster) (bit : Nat) :
    (c.difference d).contains bit = (c.contains bit && !d.contains bit) := by
  simp only [contains, difference, ofMask, Nat.testBit_xor, Nat.testBit_and]
  cases c.mask.testBit bit <;> cases d.mask.testBit bit <;> rfl

/-- The mask written in the given words, the lowest first. Of every word the lowest
64 bits count. -/
def maskOfWords : List Nat → Nat
  | [] => 0
  | word :: higher => word % 0x10000000000000000 + 0x10000000000000000 * maskOfWords higher

theorem maskOfWords_lt (words : List Nat) : maskOfWords words < 1 <<< (64 * words.length) := by
  rw [Nat.one_shiftLeft]
  induction words with
  | nil => decide
  | cons word higher ih =>
    have low : word % 2 ^ 64 < 2 ^ 64 := Nat.mod_lt _ (Nat.two_pow_pos 64)
    have high : 2 ^ 64 * (maskOfWords higher + 1) ≤ 2 ^ 64 * 2 ^ (64 * higher.length) :=
      Nat.mul_le_mul_left _ ih
    have split : 2 ^ (64 * (word :: higher).length) = 2 ^ 64 * 2 ^ (64 * higher.length) := by
      rw [← Nat.pow_add, List.length_cons]
      congr 1
      omega
    rw [split, maskOfWords]
    omega

/-- The set written in the given words, the lowest first. -/
def ofWords (words : List Nat) : Cluster :=
  ⟨maskOfWords words, words.length, maskOfWords_lt words⟩

/-- The given number of words of a mask, the lowest first. A long mask is halved, so that
no word is taken from all of it. -/
def wordsOf (count mask : Nat) : List Nat :=
  if count = 0 then []
  else if count = 1 then [mask &&& 0xFFFFFFFFFFFFFFFF]
  else
    let low := count / 2
    wordsOf low (mask % 1 <<< (64 * low)) ++ wordsOf (count - low) (mask >>> (64 * low))
termination_by count

/-- The words that the set is written in, the lowest first. -/
def words (c : Cluster) : List Nat :=
  wordsOf c.width c.mask

/-- The written form, the elements in ascending order in braces. -/
def display (c : Cluster) : String :=
  "\x7b" ++ ", ".intercalate (c.toList.map toString) ++ "\x7d"

end Cluster

end SaturationCore
