/-
# Outcomes of a comparison

Terms are ordered partially, so a comparison has four outcomes. Weights inside
the orderings are signed 64-bit numbers, and leaving that range is a fault.
-/
import SaturationCore.Fault

namespace SaturationCore

/-- The outcome of comparing two terms or literals. -/
inductive TermOrdering where
  | smaller
  | equivalent
  | greater
  | incomparable
deriving DecidableEq, Repr

namespace TermOrdering

/-- The outcome of the comparison the other way round. -/
def flip : TermOrdering → TermOrdering
  | smaller => greater
  | greater => smaller
  | other => other

theorem flip_flip (outcome : TermOrdering) : outcome.flip.flip = outcome := by
  cases outcome <;> rfl

/-- How the outcome is written. -/
def sign : TermOrdering → Char
  | smaller => '<'
  | equivalent => '='
  | greater => '>'
  | incomparable => '?'

/-- The outcome written as a given sign. -/
def ofSign? (c : Char) : Option TermOrdering :=
  [smaller, equivalent, greater, incomparable].find? fun outcome => outcome.sign == c

/-- The outcome of comparing two places of a total order. -/
def ofOrdering : Ordering → TermOrdering
  | .lt => smaller
  | .eq => equivalent
  | .gt => greater

end TermOrdering

namespace Weight

/-- A weight has to fit in 64 bits with its sign. -/
def inRange (n : Int) : Bool :=
  -(1 <<< 63 : Nat) ≤ n && n < (1 <<< 63 : Nat)

/-- The sum of two weights. -/
def add (a b : Int) : Checked Int := do
  require (inRange (a + b)) .overflow
  return a + b

/-- The difference of two weights. -/
def sub (a b : Int) : Checked Int := do
  require (inRange (a - b)) .overflow
  return a - b

/-- A configured weight is an unsigned 64-bit number; its upper half stands for
negative weights. -/
def ofConfigured (n : Nat) : Int :=
  (n : Int).bmod (1 <<< 64)

end Weight

end SaturationCore
