/-
# Weight polynomials

What a term with variables weighs depends on its instances. Every occurrence of a
variable adds the least weight of an instance to a constant, and to its
coefficient one unit of whatever the instance weighs beyond that. Comparing two
such polynomials asks for the sign of their difference over all instances.
-/
import SaturationCore.Order.Basic

namespace SaturationCore

/-- The sign of a difference of weights over all instances. -/
inductive WeightComparison where
  | alwaysSmaller
  | smallerOrEquivalent
  | alwaysEquivalent
  | greaterOrEquivalent
  | alwaysGreater
  /-- The sign depends on the instances. -/
  | volatile
deriving DecidableEq, Repr

/-- The sign of the difference the other way round. -/
def WeightComparison.flip : WeightComparison → WeightComparison
  | alwaysSmaller => alwaysGreater
  | smallerOrEquivalent => greaterOrEquivalent
  | alwaysEquivalent => alwaysEquivalent
  | greaterOrEquivalent => smallerOrEquivalent
  | alwaysGreater => alwaysSmaller
  | volatile => volatile

theorem WeightComparison.flip_flip (c : WeightComparison) : c.flip.flip = c := by cases c <;> rfl

/-- A constant weight and, for each variable, its number of occurrences. -/
structure WeightPolynomial where
  constant : Int
  coefficients : List (Variable × Nat)

namespace WeightPolynomial

/-- The polynomial that weighs nothing. -/
def zero : WeightPolynomial := ⟨0, []⟩

/-- Add to the constant. -/
def addWeight (p : WeightPolynomial) (w : Int) : Checked WeightPolynomial :=
  return { p with constant := ← Weight.add p.constant w }

/-- One more in the entry of a variable, which is made if there is none. -/
def increment (v : Variable) : List (Variable × Nat) → List (Variable × Nat)
  | [] => [(v, 1)]
  | (u, k) :: rest => if u = v then (u, k + 1) :: rest else (u, k) :: increment v rest

/-- Count one more occurrence of a variable. -/
def addVariable (p : WeightPolynomial) (v : Variable) : WeightPolynomial :=
  { p with coefficients := increment v p.coefficients }

/-- How often a variable occurs. -/
def coefficient (p : WeightPolynomial) (v : Variable) : Nat :=
  (p.coefficients.lookup v).getD 0

/-- The variables that have been counted. -/
def support (p : WeightPolynomial) : List Variable :=
  p.coefficients.map (·.1)

/-- Whether no variable occurs. -/
def isGround (p : WeightPolynomial) : Bool :=
  p.coefficients.all fun (_, k) => k == 0

/-- Polynomials are equal when constants and all coefficients are. -/
instance : BEq WeightPolynomial where
  beq p q := p.constant == q.constant &&
    (p.support ++ q.support).all fun v => p.coefficient v == q.coefficient v

/-- The sign of the difference, from the least value it can take and from whether
some coefficient speaks for the left and for the right side. -/
def classify (constant : Int) (leftHeavy rightHeavy : Bool) : WeightComparison :=
  match leftHeavy, rightHeavy with
  | true, true => .volatile
  | false, false =>
    if 0 < constant then .alwaysGreater
    else if constant < 0 then .alwaysSmaller
    else .alwaysEquivalent
  | true, false =>
    if 0 < constant then .alwaysGreater
    else if constant = 0 then .greaterOrEquivalent
    else .volatile
  | false, true =>
    if constant < 0 then .alwaysSmaller
    else if constant = 0 then .smallerOrEquivalent
    else .volatile

/-- Compare two weights over all instances. -/
def compare (p q : WeightPolynomial) : Checked WeightComparison := do
  let constant ← Weight.sub p.constant q.constant
  let vs := p.support ++ q.support
  return classify constant
    (vs.any fun v => q.coefficient v < p.coefficient v)
    (vs.any fun v => p.coefficient v < q.coefficient v)

end WeightPolynomial

end SaturationCore
