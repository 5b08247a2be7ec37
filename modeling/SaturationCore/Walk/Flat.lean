/-
# Walking the cells of a subterm

A walk visits the cells of a subterm from left to right. The arguments of the
cell just visited can be skipped. Every step leaves behind the position it
started from, so a walk can be taken back one step at a time or to a mark.
-/
import SaturationCore.Flatterm.Subterm

namespace SaturationCore

/-- A moment in a walk: how many steps had been taken. -/
structure WalkMark where
  steps : Nat
deriving DecidableEq, Repr

/-- The moment before the first step. -/
def WalkMark.origin : WalkMark := ⟨0⟩

/-- A walk along a subterm. The positions that its steps started from are kept
newest first. -/
structure FlatWalk where
  whole : Option Flatterm
  pos : Nat
  stop : Nat
  trail : List Nat

namespace FlatWalk

/-- The walk along nothing. -/
def idle : FlatWalk := ⟨none, 0, 0, []⟩

/-- A walk along a subterm, before its first step. -/
def start (s : Subterm) : FlatWalk :=
  ⟨some s.whole, s.pos, s.stop, []⟩

/-- Whether a cell is left to visit. -/
def hasNext (w : FlatWalk) : Bool :=
  w.pos < w.stop

/-- The subterm at the next cell. -/
def peek (w : FlatWalk) : Option Subterm := do
  let t ← w.whole
  if w.hasNext then Subterm.at? t w.pos else none

/-- Visit the next cell. -/
def next (w : FlatWalk) : Option Subterm × FlatWalk :=
  match w.peek with
  | none => (none, w)
  | some s => (some s, { w with pos := w.pos + 1, trail := w.pos :: w.trail })

/-- Skip the arguments of the cell before the present position. -/
def skipArguments (w : FlatWalk) : Checked FlatWalk :=
  match w.whole with
  | none => return w
  | some t => do
    require (0 < w.pos) .brokenRule
    return { w with pos := t.after (w.pos - 1), trail := w.pos :: w.trail }

/-- The present moment. -/
def mark (w : FlatWalk) : WalkMark :=
  ⟨w.trail.length⟩

/-- Take back the last step, if there is one. -/
def backtrack (w : FlatWalk) : Bool × FlatWalk :=
  match w.trail with
  | [] => (false, w)
  | pos :: trail => (true, { w with pos, trail })

/-- Take back the given number of steps. -/
def takeBack (w : FlatWalk) : Nat → FlatWalk
  | 0 => w
  | steps + 1 => takeBack w.backtrack.2 steps

/-- Take back every step after a mark. -/
def backtrackTo (w : FlatWalk) (m : WalkMark) : FlatWalk :=
  w.takeBack (w.trail.length - m.steps)

end FlatWalk

end SaturationCore
