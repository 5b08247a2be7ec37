/-
# Clusters as sets

A cluster is known by its elements and by the number of words it is written in. Comparing
clusters compares the words as well, so of two clusters with the same elements one may count as
larger than the other.

Clusters without zero words at the end are trimmed. They are written in exactly the words that
their elements need, and of them the words say nothing more: trimmed clusters with the same
elements are equal, a trimmed cluster is empty when it has no element, and it is below another
one when its elements are in there. The operations make trimmed clusters of trimmed ones.
-/
import SaturationCore.Cluster

namespace SaturationCore

namespace Cluster

variable {c d e : Cluster} {mask other : Nat}

/-! ## Sets of bits -/

theorem intersection_comm (c d : Cluster) : c.intersection d = d.intersection c :=
  congrArg ofMask (Nat.and_comm _ _)

theorem intersection_assoc (c d e : Cluster) :
    (c.intersection d).intersection e = c.intersection (d.intersection e) :=
  congrArg ofMask (Nat.and_assoc _ _ _)

theorem union_comm (c d : Cluster) : c.union d = d.union c := by
  rw [union, union, mk.injEq]
  exact ⟨Nat.or_comm _ _, Nat.max_comm _ _⟩

theorem union_assoc (c d e : Cluster) : (c.union d).union e = c.union (d.union e) := by
  rw [union, union, mk.injEq]
  exact ⟨Nat.or_assoc _ _ _, Nat.max_assoc _ _ _⟩

/-- The elements and the number of words are all there is to a cluster. -/
theorem eq_iff : c = d ↔ c.width = d.width ∧ ∀ bit, c.contains bit = d.contains bit := by
  constructor
  · rintro rfl
    exact ⟨rfl, fun _ => rfl⟩
  · rintro ⟨width, bits⟩
    obtain ⟨mask, _, fits⟩ := c
    obtain ⟨_, _, fits'⟩ := d
    obtain rfl : mask = _ := Nat.eq_of_testBit_eq bits
    obtain rfl := width
    rfl

/-! ## Comparing clusters -/

/-- The elements of `c` are in `d` as well, and `d` has the words for them. -/
def Below (c d : Cluster) : Prop :=
  c.width ≤ d.width ∧ ∀ bit, c.contains bit = true → d.contains bit = true

theorem and_eq_left_iff {a b : Nat} :
    a &&& b = a ↔ ∀ bit, a.testBit bit = true → b.testBit bit = true := by
  constructor
  · intro same bit set
    rw [← same, Nat.testBit_and, Bool.and_eq_true] at set
    exact set.2
  · intro inside
    apply Nat.eq_of_testBit_eq
    intro bit
    rw [Nat.testBit_and]
    cases set : a.testBit bit with
    | false => rfl
    | true => rw [inside bit set, Bool.and_true]

theorem containsAll_iff : d.containsAll c = true ↔ c.Below d := by
  rw [containsAll, Bool.and_eq_true, decide_eq_true_eq, beq_iff_eq, and_eq_left_iff]
  rfl

theorem isDisjoint_iff :
    c.isDisjoint d = true ↔ ∀ bit, c.contains bit = true → d.contains bit = false := by
  rw [isDisjoint, beq_iff_eq]
  constructor
  · intro none bit inside
    have both : (c.mask &&& d.mask).testBit bit = false := by
      rw [none, Nat.zero_testBit]
    rw [Nat.testBit_and] at both
    rw [contains] at inside
    rwa [inside, Bool.true_and] at both
  · intro apart
    apply Nat.eq_of_testBit_eq
    intro bit
    rw [Nat.testBit_and, Nat.zero_testBit]
    cases set : c.mask.testBit bit with
    | false => rfl
    | true => exact apart bit set

namespace Below

theorem refl (c : Cluster) : c.Below c :=
  ⟨Nat.le_refl _, fun _ h => h⟩

theorem trans (first : c.Below d) (second : d.Below e) : c.Below e :=
  ⟨Nat.le_trans first.1 second.1, fun bit h => second.2 bit (first.2 bit h)⟩

end Below

/-- A mask with fewer bits is written in no more words. -/
theorem ofMask_below {mask : Nat}
    (fewer : ∀ bit, mask.testBit bit = true → c.contains bit = true) : (ofMask mask).Below c := by
  refine ⟨widthOf_le ?_, fewer⟩
  have fits := c.fits
  rw [← and_eq_left_iff.2 fewer, Nat.one_shiftLeft] at *
  exact Nat.and_lt_two_pow mask fits

theorem intersection_below_left (c d : Cluster) : (c.intersection d).Below c := by
  apply ofMask_below
  intro bit set
  rw [Nat.testBit_and, Bool.and_eq_true] at set
  exact set.1

theorem intersection_below_right (c d : Cluster) : (c.intersection d).Below d := by
  apply ofMask_below
  intro bit set
  rw [Nat.testBit_and, Bool.and_eq_true] at set
  exact set.2

theorem difference_below (c d : Cluster) : (c.difference d).Below c := by
  apply ofMask_below
  intro bit set
  have inside : (c.difference d).contains bit = true := set
  rw [contains_difference, Bool.and_eq_true] at inside
  exact inside.1

theorem below_union_left (c d : Cluster) : c.Below (c.union d) := by
  refine ⟨Nat.le_max_left _ _, fun bit h => ?_⟩
  rw [contains_union, h, Bool.true_or]

theorem below_union_right (c d : Cluster) : d.Below (c.union d) := by
  refine ⟨Nat.le_max_right _ _, fun bit h => ?_⟩
  rw [contains_union, h, Bool.or_true]

/-! ## Trimmed clusters -/

theorem widthOf_mono (le : mask ≤ other) : widthOf mask ≤ widthOf other :=
  widthOf_le (Nat.lt_of_le_of_lt le (lt_shiftLeft_widthOf other))

/-- Masks together need as many words as the one that needs more. -/
theorem widthOf_or (mask other : Nat) :
    widthOf (mask ||| other) = max (widthOf mask) (widthOf other) := by
  apply Nat.le_antisymm
  · apply widthOf_le
    exact or_lt_shiftLeft (lt_shiftLeft_of_le (lt_shiftLeft_widthOf mask) (Nat.le_max_left _ _))
      (lt_shiftLeft_of_le (lt_shiftLeft_widthOf other) (Nat.le_max_right _ _))
  · exact Nat.max_le.2 ⟨widthOf_mono Nat.left_le_or, widthOf_mono Nat.right_le_or⟩

theorem widthOf_bit (bit : Nat) : widthOf (1 <<< bit) = bit / 64 + 1 := by
  rw [widthOf, Nat.one_shiftLeft, if_neg (Nat.ne_of_gt (Nat.two_pow_pos bit)), Nat.log2_two_pow]

/-- The cluster is written in no more words than its elements need. -/
def Trimmed (c : Cluster) : Prop :=
  c.width = widthOf c.mask

instance (c : Cluster) : Decidable c.Trimmed :=
  inferInstanceAs (Decidable (_ = _))

namespace Trimmed

theorem ofMask (mask : Nat) : (ofMask mask).Trimmed := rfl

theorem empty : Cluster.empty.Trimmed := rfl

theorem insert (trimmed : c.Trimmed) (bit : Nat) : (c.insert bit).Trimmed := by
  show max c.width (bit / 64 + 1) = widthOf (c.mask ||| 1 <<< bit)
  rw [widthOf_or, widthOf_bit, trimmed]

theorem ofList (bits : List Nat) : (Cluster.ofList bits).Trimmed := by
  have row (c : Cluster) (trimmed : c.Trimmed) : (bits.foldl Cluster.insert c).Trimmed := by
    induction bits generalizing c with
    | nil => exact trimmed
    | cons bit bits ih => exact ih _ (trimmed.insert bit)
  exact row Cluster.empty .empty

theorem remove (trimmed : c.Trimmed) (bit : Nat) : (c.remove bit).Trimmed := by
  rw [Cluster.remove]
  split
  · exact .ofMask _
  · exact trimmed

theorem union (trimmed : c.Trimmed) (trimmed' : d.Trimmed) : (c.union d).Trimmed := by
  show max c.width d.width = widthOf (c.mask ||| d.mask)
  rw [widthOf_or, trimmed, trimmed']

theorem intersection (c d : Cluster) : (c.intersection d).Trimmed := .ofMask _

theorem difference (c d : Cluster) : (c.difference d).Trimmed := .ofMask _

theorem eq_ofMask (trimmed : c.Trimmed) : c = .ofMask c.mask :=
  eq_iff.2 ⟨trimmed, fun _ => rfl⟩

/-- Trimmed clusters are equal when they have the same elements. -/
theorem eq_iff (trimmed : c.Trimmed) (trimmed' : d.Trimmed) :
    c = d ↔ ∀ bit, c.contains bit = d.contains bit := by
  constructor
  · rintro rfl
    exact fun _ => rfl
  · intro bits
    rw [trimmed.eq_ofMask, trimmed'.eq_ofMask]
    exact congrArg Cluster.ofMask (Nat.eq_of_testBit_eq bits)

/-- The elements of a trimmed cluster decide whether it is below another one. -/
theorem below_iff (trimmed : c.Trimmed) :
    c.Below d ↔ ∀ bit, c.contains bit = true → d.contains bit = true := by
  refine ⟨fun below => below.2, fun inside => ?_⟩
  rw [trimmed.eq_ofMask]
  exact ofMask_below inside

theorem isEmpty_iff (trimmed : c.Trimmed) :
    c.isEmpty = true ↔ ∀ bit, c.contains bit = false := by
  have none : c.isEmpty = true ↔ c = Cluster.empty := by
    rw [isEmpty, beq_iff_eq, Cluster.eq_iff]
    refine ⟨fun zero => ⟨zero, fun bit => ?_⟩, fun same => same.1⟩
    have fits := c.fits
    rw [zero, Nat.one_shiftLeft, Nat.mul_zero, Nat.pow_zero, Nat.lt_one_iff] at fits
    rw [contains, fits, Nat.zero_testBit, contains_empty]
  rw [none, trimmed.eq_iff .empty]
  simp only [contains_empty]

end Trimmed

end Cluster

end SaturationCore
