/-
# One log for all steps

A walk along an instance can keep the changes of all its steps in one log, and beside it how long
the log was before each step. Taking back a step undoes the log, the newest change first, until it
is as short as it was then.
-/
import SaturationCore.Walk.Instance

namespace SaturationCore

/-- A walk along an instance: the open frames, innermost first, all their changes, newest first,
and for each step, newest first, the length of the log before it. -/
structure LoggedWalk where
  frames : List Frame
  log : List FrameChange
  starts : List Nat

namespace LoggedWalk

/-- A walk along a subterm, before its first step. -/
def start (s : Subterm) : LoggedWalk :=
  ⟨[.ofSubterm s], [], []⟩

/-- Whether a head is left to visit. -/
def hasNext (w : LoggedWalk) : Bool :=
  Frames.hasNext w.frames

/-- The walk after a step that led to some frames by some changes. -/
def record (w : LoggedWalk) (frames : List Frame) (changes : List FrameChange) : LoggedWalk :=
  ⟨frames, changes ++ w.log, w.log.length :: w.starts⟩

/-- Visit the next head of the instance. -/
def next (σ : Unifier) (w : LoggedWalk) : Option Subterm × LoggedWalk :=
  match Frames.next? σ w.frames with
  | none => (none, w)
  | some (s, frames, changes) => (some s, w.record frames changes)

/-- Skip the arguments of the head just visited. -/
def skipArguments (w : LoggedWalk) : Checked LoggedWalk := do
  if w.frames.isEmpty then
    return w
  else
    let (frames, changes) ← Frames.skipArguments w.frames
    return w.record frames changes

/-- The present moment. -/
def mark (w : LoggedWalk) : WalkMark :=
  ⟨w.starts.length⟩

/-- Undo the newest changes of a log that is longer than given. -/
def undoTo (length : Nat) (frames : List Frame) : List FrameChange → List Frame × List FrameChange
  | [] => (frames, [])
  | change :: older =>
    if length ≤ older.length then undoTo length (change.undo frames) older
    else (frames, change :: older)

/-- Take back the last step, if there is one. -/
def backtrack (w : LoggedWalk) : Bool × LoggedWalk :=
  match w.starts with
  | [] => (false, w)
  | start :: starts =>
    let (frames, log) := undoTo start w.frames w.log
    (true, ⟨frames, log, starts⟩)

/-- Take back the given number of steps. -/
def takeBack (w : LoggedWalk) : Nat → LoggedWalk
  | 0 => w
  | steps + 1 => takeBack w.backtrack.2 steps

/-- Take back every step after a mark. -/
def backtrackTo (w : LoggedWalk) (m : WalkMark) : LoggedWalk :=
  w.takeBack (w.starts.length - m.steps)

end LoggedWalk

end SaturationCore
