/-
# Walking the instance of a subterm

This walk goes along a subterm as if every bound variable had been replaced by
its instance. Meeting a bound variable opens a frame on its instance. A frame
that has come to its end stays until the next step, which leaves all finished
frames at once.

Every step notes what it did to the frames, and is taken back by undoing those
changes newest first.
-/
import SaturationCore.Ledger.Unifier
import SaturationCore.Walk.Flat

namespace SaturationCore

/-- A stretch of a flatterm that is being walked. -/
structure Frame where
  whole : Flatterm
  pos : Nat
  stop : Nat

namespace Frame

/-- The stretch of a subterm, from its root on. -/
def ofSubterm (s : Subterm) : Frame :=
  ⟨s.whole, s.pos, s.stop⟩

/-- The stretch of a subterm behind its root. -/
def behindRoot (s : Subterm) : Frame :=
  ⟨s.whole, s.pos + 1, s.stop⟩

/-- Whether a cell is left to visit. -/
def hasNext (f : Frame) : Bool :=
  f.pos < f.stop

/-- The subterm at the next cell. -/
def peek (f : Frame) : Option Subterm :=
  if f.hasNext then Subterm.at? f.whole f.pos else none

end Frame

/-- A change of the frames, with what is needed to undo it. -/
inductive FrameChange where
  /-- The innermost frame moved on from a position. -/
  | moved (pos : Nat)
  /-- A frame was opened. -/
  | opened
  /-- A finished frame was left. -/
  | left (f : Frame)

/-- Undo a change of the frames. -/
def FrameChange.undo (frames : List Frame) : FrameChange → List Frame
  | .moved pos =>
    match frames with
    | [] => []
    | f :: outer => { f with pos } :: outer
  | .opened => frames.tail
  | .left f => f :: frames

namespace Frames

/-- Whether a cell is left to visit in any of the frames. -/
def hasNext (frames : List Frame) : Bool :=
  frames.any (·.hasNext)

/-- The subterm that comes next, read through the ledger. -/
def peek (σ : Unifier) (frames : List Frame) : Option Subterm := do
  let f ← frames.find? (·.hasNext)
  return σ.deref (← f.peek)

/-- Visit the next head: leave finished frames, move on, and open a frame if a
bound variable is met. The subterm visited is read through the ledger. Changes
are reported newest first. -/
def next? (σ : Unifier) : List Frame → Option (Subterm × List Frame × List FrameChange)
  | [] => none
  | f :: outer =>
    match f.peek with
    | none => do
      let (s, frames, changes) ← next? σ outer
      return (s, frames, changes ++ [.left f])
    | some here =>
      let moved := { f with pos := f.pos + 1 } :: outer
      match here.asVariable.bind σ.get? with
      | none => some (here, moved, [.moved f.pos])
      | some _ =>
        let target := σ.deref here
        some (target, .behindRoot target :: moved, [.opened, .moved f.pos])

/-- Skip the arguments of the cell before the present position of the innermost
frame. -/
def skipArguments : List Frame → Checked (List Frame × List FrameChange)
  | [] => return ([], [])
  | f :: outer => do
    require (0 < f.pos) .brokenRule
    return ({ f with pos := f.whole.after (f.pos - 1) } :: outer, [.moved f.pos])

/-- Undoing what a step changed leads to where it started. -/
theorem undo_next {σ : Unifier} {frames reached : List Frame} {s : Subterm}
    {changes : List FrameChange} (h : next? σ frames = some (s, reached, changes)) :
    changes.foldl FrameChange.undo reached = frames := by
  induction frames generalizing reached s changes with
  | nil => cases h
  | cons f outer ih =>
    rw [next?] at h
    split at h
    · simp only [Option.bind_eq_bind, Option.bind_eq_some_iff, Prod.exists, Option.pure_def,
        Option.some.injEq, Prod.mk.injEq] at h
      obtain ⟨_, _, inner, hinner, rfl, rfl, rfl⟩ := h
      rw [List.foldl_append, ih hinner]
      rfl
    · split at h
      · cases h
        rfl
      · cases h
        rfl

end Frames

/-- A walk along an instance: the open frames, innermost first, and what each
step changed, newest first. Put end to end, the changes of all steps are one log, which
`LoggedWalk` keeps together with its length before each step. -/
structure InstanceWalk where
  frames : List Frame
  steps : List (List FrameChange)

namespace InstanceWalk

/-- The walk along nothing. -/
def idle : InstanceWalk := ⟨[], []⟩

/-- A walk along a subterm, before its first step. -/
def start (s : Subterm) : InstanceWalk :=
  ⟨[.ofSubterm s], []⟩

/-- How many instances have been entered and not left. -/
def depth (w : InstanceWalk) : Nat :=
  w.frames.length - 1

/-- Whether a head is left to visit. -/
def hasNext (w : InstanceWalk) : Bool :=
  Frames.hasNext w.frames

/-- The subterm that the next step would visit. -/
def peek (σ : Unifier) (w : InstanceWalk) : Option Subterm :=
  Frames.peek σ w.frames

/-- Visit the next head of the instance. -/
def next (σ : Unifier) (w : InstanceWalk) : Option Subterm × InstanceWalk :=
  match Frames.next? σ w.frames with
  | none => (none, w)
  | some (s, frames, changes) => (some s, ⟨frames, changes :: w.steps⟩)

/-- Skip the arguments of the head just visited. Without any frame there is
nothing to skip, and no step is taken. -/
def skipArguments (w : InstanceWalk) : Checked InstanceWalk := do
  if w.frames.isEmpty then
    return w
  else
    let (frames, changes) ← Frames.skipArguments w.frames
    return ⟨frames, changes :: w.steps⟩

/-- The present moment. -/
def mark (w : InstanceWalk) : WalkMark :=
  ⟨w.steps.length⟩

/-- Take back the last step, if there is one. -/
def backtrack (w : InstanceWalk) : Bool × InstanceWalk :=
  match w.steps with
  | [] => (false, w)
  | changes :: steps => (true, ⟨changes.foldl FrameChange.undo w.frames, steps⟩)

/-- Take back the given number of steps. -/
def takeBack (w : InstanceWalk) : Nat → InstanceWalk
  | 0 => w
  | steps + 1 => takeBack w.backtrack.2 steps

/-- Take back every step after a mark. -/
def backtrackTo (w : InstanceWalk) (m : WalkMark) : InstanceWalk :=
  w.takeBack (w.steps.length - m.steps)

end InstanceWalk

end SaturationCore
