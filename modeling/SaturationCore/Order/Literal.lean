/-
# Ordering literals

The admissible ordering extends the ordering of terms to literals. Equations are
below all other literals and compared as multisets of their sides; other literals
are compared by their atoms, and a denied atom is just above the asserted one.

The shallow ordering only weighs a literal's predicate and the heads directly
below it, and orders all literals in a row.

Either ordering singles out the maximal literals of a clause.
-/
import SaturationCore.Clause
import SaturationCore.Order.DecisionTree
import SaturationCore.Order.KnuthBendix

namespace SaturationCore

/-- Of two literals over the same atom the denied one is greater. -/
def breakTie (atoms : TermOrdering) (left right : Bool) : TermOrdering :=
  match atoms, left, right with
  | .equivalent, true, false => .smaller
  | .equivalent, false, true => .greater
  | _, _, _ => atoms

/-- One of the two sides. -/
def Side.of {α : Type} (sides : α × α) : Side → α
  | .first => sides.1
  | .second => sides.2

/-- Compare equations, given by polarity and sides, as multisets of their sides. -/
def compareEquations {α : Type} (cmp : α → α → Checked TermOrdering)
    (left : Bool) (ls : α × α) (right : Bool) (rs : α × α) : Checked TermOrdering :=
  match left, right with
  | false, true => DecisionTree.deniedWithAsserted.run fun i j => cmp (i.of ls) (j.of rs)
  | true, false =>
    return (← DecisionTree.deniedWithAsserted.run fun i j => cmp (i.of rs) (j.of ls)).flip
  | _, _ => DecisionTree.equations.run fun i j => cmp (i.of ls) (j.of rs)

/-- The first two of the arguments, which an equation has to have. -/
def sides {α : Type} : List α → Checked (α × α)
  | a :: b :: _ => .ok (a, b)
  | _ => .error .outOfBounds

namespace KnuthBendix

/-- The admissible ordering of literals. -/
def compareLiterals (k : KnuthBendix) (a b : Literal) : Checked TermOrdering := do
  match (← a.predicate).isEquality, (← b.predicate).isEquality with
  | true, false => return .smaller
  | false, true => return .greater
  | false, false => return breakTie (← k.compare a.atom b.atom) a.polarity b.polarity
  | true, true =>
    compareEquations k.compare a.polarity (← sides a.args) b.polarity (← sides b.args)

/-- The admissible ordering of flat literals. -/
def compareFlatLiterals (k : KnuthBendix) (a b : FlatLiteral) : Checked TermOrdering := do
  match a.isEquality, b.isEquality with
  | true, false => return .smaller
  | false, true => return .greater
  | false, false => return breakTie (← k.compareFlat a.atom b.atom) a.polarity b.polarity
  | true, true =>
    let ls := (← a.atom.arg 0, ← a.atom.arg 1)
    let rs := (← b.atom.arg 0, ← b.atom.arg 1)
    compareEquations k.compareFlat a.polarity ls b.polarity rs

/-- The weight of a head standing alone. -/
def headWeight (k : KnuthBendix) : Head → Int
  | .var _ => k.leastWeight
  | .symbol s => k.symbolWeight s
  | .binder _ => 1

/-- The weight of the predicate together with the heads of its arguments. -/
def shallowWeight (k : KnuthBendix) (l : Literal) : Checked Int := do
  let predicate ← l.predicate
  l.args.foldlM (fun total a => Weight.add total (k.headWeight a.head))
    (k.symbolWeight predicate)

/-- The shallow ordering of literals: by shallow weight, then by predicate. -/
def compareShallow (k : KnuthBendix) (a b : Literal) : Checked TermOrdering := do
  let left ← k.shallowWeight a
  let right ← k.shallowWeight b
  let p ← a.predicate
  let q ← b.predicate
  return .ofOrdering ((Ord.compare left right).then (Ord.compare p.id q.id))

end KnuthBendix

/-- Whether no literal outside the given place is greater than `l`. -/
def isMaximal (cmp : Literal → Literal → Checked TermOrdering) (ls : List Literal)
    (place : Nat) (l : Literal) : Checked Bool :=
  ls.zipIdx.allM fun (other, j) => do
    if j = place then return true
    else return (← cmp l other) != .smaller

/-- The places of the literals that no other literal is greater than. -/
def maximalLiterals (cmp : Literal → Literal → Checked TermOrdering) (ls : List Literal) :
    Checked (List Nat) :=
  return (← ls.zipIdx.filterM fun (l, i) => isMaximal cmp ls i l).map (·.2)

end SaturationCore
