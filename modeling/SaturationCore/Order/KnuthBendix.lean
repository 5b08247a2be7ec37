/-
# The Knuth-Bendix ordering

Two terms are compared by their weights, and terms that weigh the same are
compared head by head along their spellings, where the first difference decides
by precedence. Both passes read nothing but spellings, so the same comparison
serves trees, subterms, and either of them read through a ledger.

Logical symbols weigh one and stand above all declared symbols, connectives above
quantifiers. Declared symbols weigh and rank as configured; among equal ranks the
later declared one is greater.
-/
import SaturationCore.Ledger.Matcher
import SaturationCore.Order.Polynomial

namespace SaturationCore

/-- Weights and ranks of declared symbols, by identifier. Symbols without an entry
weigh one and rank zero. -/
structure KnuthBendix where
  weights : List (Nat × Nat)
  ranks : List (Nat × Nat)
  variableWeight : Nat

namespace KnuthBendix

/-- Everything weighs one, and later declared symbols are greater. -/
def standard : KnuthBendix := ⟨[], [], 1⟩

/-- The weight of a symbol. -/
def symbolWeight (k : KnuthBendix) (s : Symbol) : Int :=
  if s.isDeclared then Weight.ofConfigured ((k.weights.lookup s.id).getD 1) else 1

/-- The least weight of an instance of a variable. -/
def leastWeight (k : KnuthBendix) : Int :=
  Weight.ofConfigured k.variableWeight

/-- The rank of a declared symbol. -/
def rank (k : KnuthBendix) (s : Symbol) : Nat :=
  (k.ranks.lookup s.id).getD 0

/-- Which of two symbols is greater: by whether they are logical, then by rank or
category, then by identifier. -/
def precedence (k : KnuthBendix) (a b : Symbol) : Ordering :=
  ((compare a.kind.isLogical.toNat b.kind.isLogical.toNat).then
    (if a.isDeclared && b.isDeclared then compare (k.rank a) (k.rank b)
      else compare a.kind.rank b.kind.rank)).then
    (compare a.id b.id)

/-- Count one head in. -/
def weighHead (k : KnuthBendix) (p : WeightPolynomial) : Head → Checked WeightPolynomial
  | .var v => (p.addVariable v).addWeight k.leastWeight
  | .symbol s => p.addWeight (k.symbolWeight s)
  | .binder _ => p.addWeight 1

/-- The weight of a sequence of heads, counted from left to right. -/
def weigh (k : KnuthBendix) (hs : List Head) : Checked WeightPolynomial :=
  hs.foldlM k.weighHead .zero

/-- Which of two sequences of heads is greater at their first difference. Only
two different symbols decide; any other difference leaves it open. -/
def lexicographic (k : KnuthBendix) : List Head → List Head → TermOrdering
  | [], [] => .equivalent
  | .symbol s :: as, .symbol t :: bs =>
    if s = t then lexicographic k as bs
    else match k.precedence s t with
      | .gt => .greater
      | .lt => .smaller
      | .eq => .incomparable
  | .var u :: as, .var v :: bs => if u = v then lexicographic k as bs else .incomparable
  | .binder u :: as, .binder v :: bs => if u = v then lexicographic k as bs else .incomparable
  | _, _ => .incomparable

/-- Settle a comparison whose weights are known. Weights that can be equal need
the first difference to point the same way. -/
def settle (k : KnuthBendix) (weights : WeightComparison) (as bs : List Head) : TermOrdering :=
  match weights with
  | .alwaysSmaller => .smaller
  | .alwaysGreater => .greater
  | .volatile => .incomparable
  | .alwaysEquivalent => k.lexicographic as bs
  | .smallerOrEquivalent =>
    if k.lexicographic as bs = .smaller then .smaller else .incomparable
  | .greaterOrEquivalent =>
    if k.lexicographic as bs = .greater then .greater else .incomparable

/-- Compare two sequences of heads. -/
def compareSpellings (k : KnuthBendix) (as bs : List Head) : Checked TermOrdering := do
  let p ← k.weigh as
  let q ← k.weigh bs
  return k.settle (← p.compare q) as bs

/-- Compare two terms. -/
def compare (k : KnuthBendix) (a b : Term) : Checked TermOrdering :=
  k.compareSpellings a.spelling b.spelling

/-- Compare two subterms. -/
def compareFlat (k : KnuthBendix) (a b : Subterm) : Checked TermOrdering :=
  k.compareSpellings a.spelling b.spelling

/-- Compare two terms as they read through a ledger. -/
def compareModulo (k : KnuthBendix) (σ : TreeMatcher) (a b : Term) : Checked TermOrdering :=
  k.compareSpellings (σ.instanceSpelling a) (σ.instanceSpelling b)

/-- Compare two subterms as they read through a ledger. -/
def compareFlatModulo (k : KnuthBendix) (σ : Matcher) (a b : Subterm) :
    Checked TermOrdering :=
  k.compareSpellings (σ.instanceSpelling a) (σ.instanceSpelling b)

/-- Whether an outcome leaves room for greater instances. -/
def leavesGreater : TermOrdering → Bool
  | .greater | .incomparable => true
  | _ => false

/-- Whether some instance of the first term may be greater. A free variable of the
second that the first lacks rules it out. -/
def canBeGreater (k : KnuthBendix) (a b : Term) : Checked Bool := do
  let vs := a.freeVariables
  if b.freeVariables.all vs.contains then
    return leavesGreater (← k.compare a b)
  else
    return false

/-- Whether some instance of the first subterm may be greater. A variable of the
second that the first lacks rules it out. -/
def canBeGreaterFlat (k : KnuthBendix) (a b : Subterm) : Checked Bool := do
  let vs := a.leafVariables
  if b.leafVariables.all vs.contains then
    return leavesGreater (← k.compareFlat a b)
  else
    return false

end KnuthBendix

end SaturationCore
