/-
# The words of a cluster

The bits of a set of numbers are kept in words of 64 bits, the lowest first. A set has only the words
that it was given, and what it has no word for is not in it.

Operations on two sets go through the words of both side by side, as long as both have some. The words
that only one of them has are kept or dropped, whichever is right for the operation. Where words may
have become zero, those at the end are dropped, so that sets can be compared word by word.
-/
import SaturationCore.Cluster

namespace SaturationCore

/-- A set of numbers as the words of its bits, the lowest first. -/
structure WordSet where
  words : List (BitVec 64)
deriving DecidableEq, Repr

namespace WordSet

/-- The word with a single bit. -/
def bitOf (bit : Nat) : BitVec 64 :=
  1#64 <<< (bit % 64)

/-- Drop the zero words at the end. -/
def trim (words : List (BitVec 64)) : List (BitVec 64) :=
  if words.getLast? = some 0#64 then trim words.dropLast else words
termination_by words.length
decreasing_by
  rename_i zero
  have some : words ≠ [] := by
    rintro rfl
    cases zero
  rw [List.length_dropLast]
  exact Nat.sub_lt (List.length_pos_iff.2 some) Nat.one_pos

/-- Combine the words of `long` with those of `short`, and keep those that `short` lacks. -/
def overlay (combine : BitVec 64 → BitVec 64 → BitVec 64) :
    (long short : List (BitVec 64)) → List (BitVec 64)
  | word :: long, other :: short => combine word other :: overlay combine long short
  | long, [] => long
  | [], _ => []

/-- The set without elements. -/
def empty : WordSet :=
  ⟨[]⟩

/-- Add an element, behind as many zero words as are missing up to its own. -/
def insert (s : WordSet) (bit : Nat) : WordSet :=
  ⟨(s.words.rightpad (bit / 64 + 1) 0#64).modify (bit / 64) (· ||| bitOf bit)⟩

/-- The set of one element. -/
def singleton (bit : Nat) : WordSet :=
  empty.insert bit

/-- The set of the elements of a list. -/
def ofList (bits : List Nat) : WordSet :=
  bits.foldl insert empty

/-- Remove an element. A number beyond all words leaves them untouched. -/
def remove (s : WordSet) (bit : Nat) : WordSet :=
  if bit / 64 < s.words.length then ⟨trim (s.words.modify (bit / 64) (· &&& ~~~bitOf bit))⟩ else s

/-- Whether a number is an element. -/
def contains (s : WordSet) (bit : Nat) : Bool :=
  s.words[bit / 64]?.any fun word => word &&& bitOf bit != 0#64

/-- Whether there are no words. -/
def isEmpty (s : WordSet) : Bool :=
  s.words.isEmpty

/-- How many bits the words have. -/
def size (s : WordSet) : Nat :=
  s.words.foldr (fun word bits => word.cpop.toNat + bits) 0

/-- Whether `t` has no more words than `s` and no bit in them that `s` lacks. -/
def containsAll (s t : WordSet) : Bool :=
  t.words.length ≤ s.words.length &&
    (t.words.zip s.words).all fun (other, word) => other &&& ~~~word == 0#64

/-- Whether the words that both have share no bit. -/
def isDisjoint (s t : WordSet) : Bool :=
  (s.words.zip t.words).all fun (word, other) => word &&& other == 0#64

/-- The elements of either set. The longer one gives the words that the other lacks. -/
def union (s t : WordSet) : WordSet :=
  if t.words.length ≤ s.words.length then ⟨overlay (· ||| ·) s.words t.words⟩
  else ⟨overlay (· ||| ·) t.words s.words⟩

/-- The common elements. -/
def intersection (s t : WordSet) : WordSet :=
  ⟨trim (s.words.zipWith (· &&& ·) t.words)⟩

/-- The elements of `s` that `t` lacks. -/
def difference (s t : WordSet) : WordSet :=
  ⟨trim (overlay (fun word other => word &&& ~~~other) s.words t.words)⟩

/-- The elements in ascending order, word by word and in each from the lowest bit on. -/
def toList (s : WordSet) : List Nat :=
  s.words.zipIdx.flatMap fun (word, i) =>
    ((List.range 64).filter fun bit => word &&& 1#64 <<< bit != 0#64).map fun bit => i * 64 + bit

end WordSet

/-- A cluster written in its words. -/
def Cluster.packed (c : Cluster) : WordSet :=
  ⟨c.words.map (BitVec.ofNat 64)⟩

end SaturationCore
