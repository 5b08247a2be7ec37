/-
# The log of a walk along an instance

A walk that keeps one log and the length it had before each step does what a walk does that keeps
the changes of each step for themselves: put end to end, those changes are the log, and a step
begins where the changes of the steps before it end.
-/
import SaturationCore.Proofs.Walk.Retrace
import SaturationCore.Walk.Log

namespace SaturationCore

/-- Walking with one log. -/
def LoggedWalk.walking : Walking LoggedWalk where
  next := next
  skipArguments := skipArguments
  backtrack := backtrack
  backtrackTo := backtrackTo
  mark := mark
  hasNext := hasNext

namespace LoggedWalk

/-- How long the log was before each of some steps. -/
def lengthsBefore : List (List FrameChange) → List Nat
  | [] => []
  | _ :: older => older.flatten.length :: lengthsBefore older

theorem length_lengthsBefore (steps : List (List FrameChange)) :
    (lengthsBefore steps).length = steps.length := by
  induction steps with
  | nil => rfl
  | cons _ older ih => exact congrArg (· + 1) ih

/-- Undoing down to where a step began undoes just what the step changed. -/
theorem undoTo_append (frames : List Frame) (changes older : List FrameChange) :
    undoTo older.length frames (changes ++ older) =
      (changes.foldl FrameChange.undo frames, older) := by
  induction changes generalizing frames with
  | nil =>
      cases older with
      | nil => rfl
      | cons change older => exact if_neg (Nat.not_succ_le_self _)
  | cons change changes ih =>
      rw [List.cons_append, undoTo, if_pos (List.length_append ▸ Nat.le_add_left _ _), ih]
      rfl

end LoggedWalk

namespace InstanceWalk

open LoggedWalk

/-- The walk with the changes of its steps put end to end. -/
def logged (w : InstanceWalk) : LoggedWalk :=
  ⟨w.frames, w.steps.flatten, lengthsBefore w.steps⟩

theorem next_logged (σ : Unifier) (w : InstanceWalk) :
    w.logged.next σ = ((w.next σ).1, (w.next σ).2.logged) := by
  rw [LoggedWalk.next, InstanceWalk.next, logged]
  cases Frames.next? σ w.frames with
  | none => rfl
  | some result => rfl

theorem skipArguments_logged (w : InstanceWalk) :
    w.logged.skipArguments = logged <$> w.skipArguments := by
  obtain ⟨frames, steps⟩ := w
  rw [LoggedWalk.skipArguments, InstanceWalk.skipArguments, logged]
  cases frames with
  | nil => rfl
  | cons f outer =>
      cases Frames.skipArguments (f :: outer) with
      | error fault => rfl
      | ok skipped => rfl

theorem mark_logged (w : InstanceWalk) : w.logged.mark = w.mark :=
  congrArg WalkMark.mk (length_lengthsBefore w.steps)

theorem backtrack_logged (w : InstanceWalk) :
    w.logged.backtrack = (w.backtrack.1, w.backtrack.2.logged) := by
  obtain ⟨frames, steps⟩ := w
  cases steps with
  | nil => rfl
  | cons changes older =>
      show (true, LoggedWalk.mk (undoTo older.flatten.length frames (changes ++ older.flatten)).1
        (undoTo older.flatten.length frames (changes ++ older.flatten)).2 _) = _
      rw [undoTo_append]
      rfl

theorem takeBack_logged (w : InstanceWalk) (steps : Nat) :
    w.logged.takeBack steps = (w.takeBack steps).logged := by
  induction steps generalizing w with
  | zero => rfl
  | succ steps ih =>
      rw [LoggedWalk.takeBack, backtrack_logged]
      exact ih w.backtrack.2

theorem backtrackTo_logged (w : InstanceWalk) (m : WalkMark) :
    w.logged.backtrackTo m = (w.backtrackTo m).logged := by
  have taken : w.logged.starts.length = w.steps.length := length_lengthsBefore w.steps
  rw [LoggedWalk.backtrackTo, taken]
  exact takeBack_logged w _

end InstanceWalk

/-- Any sequence of moves answers the same with one log. After each of them the same frames are
open, and a mark made there is the same. -/
theorem LoggedWalk.transcript_eq (s : Subterm) (moves : List WalkMove) :
    walking.transcript (fun l => (l.frames, l.mark)) moves (.start s) =
      InstanceWalk.walking.transcript (fun w => (w.frames, w.mark)) moves (.start s) := by
  let R (l : LoggedWalk) (w : InstanceWalk) : Prop := l = w.logged
  have seen (l : LoggedWalk) (w : InstanceWalk) (related : R l w) :
      (l.frames, l.mark) = (w.frames, w.mark) := by
    rw [related, w.mark_logged]
    rfl
  have first : R (.start s) (.start s) := rfl
  refine Walking.transcript_eq ?_ seen first
  rintro m - _ w rfl
  cases m with
  | forth step =>
      cases step with
      | visit σ =>
          show SameMove R (.ok (.visited (w.logged.next σ).1, (w.logged.next σ).2)) _
          rw [w.next_logged]
          exact .done rfl
      | skip =>
          show SameMove R (w.logged.skipArguments >>= fun l => .ok (.done, l))
            (w.skipArguments >>= fun w => .ok (.done, w))
          rw [w.skipArguments_logged]
          cases w.skipArguments with
          | error fault => exact .refused fault
          | ok v => exact .done rfl
  | back =>
      show SameMove R (.ok (.undone w.logged.backtrack.1, w.logged.backtrack.2)) _
      rw [w.backtrack_logged]
      exact .done rfl
  | backTo m => exact .done (w.backtrackTo_logged m)

end SaturationCore
