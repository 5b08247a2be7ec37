/-
# Ledgers as a map with a trail

A ledger can be kept in two parts: a map from variables to instances, which is what it is read
by, and a trail of variables in the order in which they were bound, which is what bindings are
undone by. Every operation changes each part on its own, and nothing but the order in which
operations are used ties the one part to the other. Undoing several bindings undoes one after
the other.
-/
import SaturationCore.Ledger.Basic

namespace SaturationCore

/-- Instances of variables, and a trail of variables, oldest first. -/
structure TrailedMap (ι : Type) where
  map : Variable → Option ι
  trail : List Variable

namespace TrailedMap

variable {ι : Type}

/-- Nothing is bound. -/
def empty : TrailedMap ι := ⟨fun _ => none, []⟩

/-- Whether the variable is a key of the map. -/
def isBound (s : TrailedMap ι) (v : Variable) : Bool :=
  (s.map v).isSome

/-- Record an instance in the map and the variable on the trail. -/
def put (s : TrailedMap ι) (v : Variable) (value : ι) : TrailedMap ι :=
  ⟨fun u => if u = v then some value else s.map u, s.trail ++ [v]⟩

/-- Bind a variable, which must not be bound yet. -/
def bind (s : TrailedMap ι) (v : Variable) (value : ι) : Checked (TrailedMap ι) := do
  require (!s.isBound v) (.alreadyBound v)
  return s.put v value

/-- The present moment. -/
def savepoint (s : TrailedMap ι) : Savepoint :=
  ⟨s.trail.length⟩

/-- Take the last variable off the trail, and its instance out of the map. -/
def backtrack (s : TrailedMap ι) : Option Variable × TrailedMap ι :=
  match s.trail.getLast? with
  | none => (none, s)
  | some v => (some v, ⟨fun u => if u = v then none else s.map u, s.trail.dropLast⟩)

/-- Undoing what was just put takes out of the map whatever the variable had before. -/
theorem backtrack_put (s : TrailedMap ι) (v : Variable) (value : ι) :
    (s.put v value).backtrack =
      (some v, ⟨fun u => if u = v then none else s.map u, s.trail⟩) := by
  have last : (s.put v value).trail.getLast? = some v := List.getLast?_concat
  rw [backtrack, last]
  refine congrArg (Prod.mk (some v)) ?_
  rw [put, List.dropLast_concat, mk.injEq]
  refine ⟨funext fun u => ?_, rfl⟩
  split
  · rfl
  · next other => exact if_neg other

theorem length_trail_backtrack (s : TrailedMap ι) :
    s.backtrack.2.trail.length = s.trail.length - 1 := by
  rw [backtrack]
  split
  · next none => rw [List.getLast?_eq_none_iff.1 none]; rfl
  · exact List.length_dropLast

/-- Undo bindings, one after the other, while the trail is longer than `count`. -/
def unwind (s : TrailedMap ι) (count : Nat) : TrailedMap ι :=
  if count < s.trail.length then unwind s.backtrack.2 count else s
termination_by s.trail.length
decreasing_by rw [length_trail_backtrack]; omega

/-- Undo every binding made after a savepoint, which must not lie ahead. -/
def backtrackTo (s : TrailedMap ι) (moment : Savepoint) : Checked (TrailedMap ι) := do
  require (moment.bindings ≤ s.trail.length) .futureSavepoint
  return s.unwind moment.bindings

/-- Whether the variable was bound after a savepoint. -/
def boundSince (s : TrailedMap ι) (v : Variable) (moment : Savepoint) : Bool :=
  (s.trail.drop moment.bindings).contains v

end TrailedMap

end SaturationCore
