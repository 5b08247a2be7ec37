/-
# An index of clauses for subsumption

Clauses are stored under their feature vectors and get the next free number as
their identifier, which is never given again. A search runs the subsumption test
only on clauses whose vectors allow it: at most the query's to find a clause that
subsumes the query, at least the query's to find the clauses it subsumes.
-/
import SaturationCore.FeatureVector.Cursor
import SaturationCore.FeatureVector.Extractor
import SaturationCore.Subsumption.Test

namespace SaturationCore

/-- Clauses under their feature vectors. The place of a clause is its identifier;
removed clauses leave an empty place. -/
structure SubsumptionIndex where
  table : FeatureTable
  vectors : FeatureIndex (List Nat)
  clauses : Array (Option Clause)
  live : Nat

namespace SubsumptionIndex

/-- The index without clauses over a table of features. -/
def empty (table : FeatureTable) : SubsumptionIndex :=
  ⟨table, .empty, #[], 0⟩

/-- The clause with a given identifier, unless it was removed. -/
def get? (ix : SubsumptionIndex) (id : Nat) : Option Clause :=
  (ix.clauses[id]?).join

/-- Store a clause and say under which identifier. -/
def add (ix : SubsumptionIndex) (c : Clause) : Checked (Nat × SubsumptionIndex) := do
  let id := ix.clauses.size
  let features := ix.table.extract c
  let (ids, vectors) ← ix.vectors.insert features
  return (id, { ix with
    vectors := vectors.fill features (ids.getD [] ++ [id])
    clauses := ix.clauses.push (some c)
    live := ix.live + 1 })

/-- Remove the clause with a given identifier. A vector left without clauses is
removed with it. -/
def remove (ix : SubsumptionIndex) (id : Nat) : Option Clause × SubsumptionIndex :=
  match ix.get? id with
  | none => (none, ix)
  | some c =>
    let features := ix.table.extract c
    let kept := ((ix.vectors.find? features).getD []).filter (· != id)
    let vectors :=
      if kept.isEmpty then (ix.vectors.remove features).2 else ix.vectors.fill features kept
    (some c, { ix with vectors, clauses := ix.clauses.setIfInBounds id none, live := ix.live - 1 })

/-- The stored clauses whose vectors are within a bound of a clause's vector. -/
def candidates (ix : SubsumptionIndex) (b : Bound) (c : Clause) :
    Checked (List (Nat × Clause)) := do
  let ids ← ix.vectors.select b (ix.table.extract c)
  return ids.flatten.filterMap fun id => (ix.get? id).map (id, ·)

/-- The first of some clauses that subsumes a clause. A test that fails leaves the ledger
to the next one as it was. -/
def firstSubsuming (c : Clause) : List (Nat × Clause) → TreeMatcher → Option Nat
  | [], _ => none
  | (id, stored) :: rest, σ =>
    match stored.attemptSubsumption c σ with
    | (true, _) => some id
    | (false, σ) => firstSubsuming c rest σ

/-- Those of some clauses that a clause subsumes. The ledger is cleared after every test. -/
def allSubsumed (c : Clause) : List (Nat × Clause) → TreeMatcher → List Nat
  | [], _ => []
  | (id, stored) :: rest, σ =>
    let (subsumed, _) := c.attemptSubsumption stored σ
    let found := allSubsumed c rest .empty
    if subsumed then id :: found else found

/-- The first stored clause found that subsumes a clause. -/
def findSubsumer (ix : SubsumptionIndex) (c : Clause) : Checked (Option Nat) :=
  return firstSubsuming c (← ix.candidates .atMost c) .empty

/-- All stored clauses that a clause subsumes. -/
def findSubsumed (ix : SubsumptionIndex) (c : Clause) : Checked (List Nat) :=
  return allSubsumed c (← ix.candidates .atLeast c) .empty

end SubsumptionIndex

end SaturationCore
