/-
# Features of clauses

A feature vector counts things in a clause that instances and further literals can
only make more of: all, asserted and denied literals first, then for every symbol
of a table its occurrences. A predicate has one place for asserted and one for
denied literals, a function or constant has one place for its occurrences at any
depth. So a clause that subsumes another has a vector that is nowhere greater.
-/
import SaturationCore.Clause

namespace SaturationCore

/-- The places of the tabled symbols, and the number of places in all. -/
structure FeatureTable where
  predicates : List (Symbol × Nat)
  functions : List (Symbol × Nat)
  dimension : Nat
deriving Repr

namespace FeatureTable

/-- The places that count literals. -/
def literalPlaces : Nat := 3

/-- The table without symbols. -/
def empty : FeatureTable := ⟨[], [], literalPlaces⟩

/-- Give a predicate two places, unless it has them. -/
def addPredicate (t : FeatureTable) (s : Symbol) : FeatureTable :=
  if (t.predicates.lookup s).isSome then t
  else { t with predicates := (s, t.dimension) :: t.predicates, dimension := t.dimension + 2 }

/-- Give a function or constant a place, unless it has one. -/
def addFunction (t : FeatureTable) (s : Symbol) : FeatureTable :=
  if (t.functions.lookup s).isSome then t
  else { t with functions := (s, t.dimension) :: t.functions, dimension := t.dimension + 1 }

/-- The table of given predicates and functions. -/
def ofSymbols (predicates functions : List Symbol) : FeatureTable :=
  functions.foldl addFunction (predicates.foldl addPredicate empty)

/-- The functions and constants among heads. -/
def functionSymbols (hs : List Head) : List Symbol :=
  hs.filterMap fun
    | .symbol s => if s.kind = .function ∨ s.kind = .constant then some s else none
    | _ => none

/-- The occurrences of functions and constants in the arguments of a literal. -/
def functionsOf (l : Literal) : List Symbol :=
  l.args.flatMap fun a => functionSymbols a.spelling

/-- The table with all symbols of a literal. A literal whose atom is no application of a predicate
adds no predicate; asking it for one, as `Literal.predicate` does, would be a fault. -/
def addLiteral (t : FeatureTable) (l : Literal) : FeatureTable :=
  let t := match l.predicate? with
    | some p => t.addPredicate p
    | none => t
  (functionsOf l).foldl addFunction t

/-- The table of all symbols that occur in clauses. -/
def ofClauses (cs : List Clause) : FeatureTable :=
  cs.foldl (fun t c => c.literals.foldl addLiteral t) empty

/-- The places that a literal adds to, with repetitions. A literal whose atom is no application of a
predicate adds to no place of a predicate, where `countLiteral` refuses it. -/
def placesOf (t : FeatureTable) (l : Literal) : List Nat :=
  let sign := if l.polarity then 1 else 2
  let predicate := (l.predicate?.bind fun p => t.predicates.lookup p).map
    fun place => if l.polarity then place else place + 1
  0 :: sign :: (predicate.toList ++ (functionsOf l).filterMap fun f => t.functions.lookup f)

/-- The feature vector of a clause. -/
def extract (t : FeatureTable) (c : Clause) : List Nat :=
  (c.literals.flatMap t.placesOf).foldl (fun counts place => counts.modify place (· + 1))
    (List.replicate t.dimension 0)

/-! ## Counts of 32 bits -/

/-- What a count stays below. -/
def countLimit : Nat := 1 <<< 32

/-- Raise the count at a place, which has to lie inside, to a number that still fits. -/
def raise (counts : List Nat) (place : Nat) : Checked (List Nat) :=
  match counts[place]? with
  | none => .error .outOfBounds
  | some n => if n + 1 < countLimit then .ok (counts.set place (n + 1)) else .error .overflow

/-- Raise the count at a place, if there is one. -/
def raiseAny (counts : List Nat) : Option Nat → Checked (List Nat)
  | some place => raise counts place
  | none => pure counts

/-- Raise the counts that a literal adds to, which has to have an atom. -/
def countLiteral (t : FeatureTable) (counts : List Nat) (l : Literal) : Checked (List Nat) := do
  let counts ← raise counts (if l.polarity then 1 else 2)
  let base := t.predicates.lookup (← l.predicate)
  let counts ← raiseAny counts (base.map fun place => if l.polarity then place else place + 1)
  (functionsOf l).foldlM (fun counts f => raiseAny counts (t.functions.lookup f)) counts

/-- The feature vector of a clause in words. The number of literals is written down at once, cut
off to what fits, and everything else is counted up. -/
def extractWords (t : FeatureTable) (c : Clause) : Checked (List Nat) :=
  c.literals.foldlM t.countLiteral ((List.replicate t.dimension 0).set 0 (c.size % countLimit))

end FeatureTable

end SaturationCore
