/-
# Sequences of moves in a walk

A walk is taken forth step by step, and back by one step or to a mark. Both walks, along the
cells of a subterm and along its instance, are used in the same way, so what is said about
sequences of moves is said of any way to walk. A step reads what comes next through a ledger,
which may be another one each time; the walk along cells leaves the ledger aside.

Taking steps back can be understood without knowing how walks do it. A walk that remembers all
earlier states puts the last one of them back in its place, and this is again a way to walk.
-/
import SaturationCore.Walk.Instance

namespace SaturationCore

/-- A step forth. -/
inductive WalkStep where
  /-- Visit what comes next, read through a ledger. -/
  | visit (σ : Unifier)
  /-- Skip the arguments of what was visited last. -/
  | skip

/-- Something that is done with a walk. -/
inductive WalkMove where
  | forth (step : WalkStep)
  /-- Take back one step. -/
  | back
  /-- Take back every step after a mark. -/
  | backTo (m : WalkMark)

/-- What a move answers. -/
inductive WalkReply where
  /-- The subterm that was visited, if one was left. -/
  | visited (s : Option Subterm)
  /-- Whether there was a step to take back. -/
  | undone (any : Bool)
  | done

/-- A way to walk, with walks in the given states. -/
structure Walking (W : Type) where
  next : Unifier → W → Option Subterm × W
  skipArguments : W → Checked W
  backtrack : W → Bool × W
  backtrackTo : W → WalkMark → W
  mark : W → WalkMark
  hasNext : W → Bool

/-- Walking along the cells of a subterm. -/
def FlatWalk.walking : Walking FlatWalk where
  next _ w := w.next
  skipArguments := skipArguments
  backtrack := backtrack
  backtrackTo := backtrackTo
  mark := mark
  hasNext := hasNext

/-- Walking along the instance of a subterm. -/
def InstanceWalk.walking : Walking InstanceWalk where
  next := next
  skipArguments := skipArguments
  backtrack := backtrack
  backtrackTo := backtrackTo
  mark := mark
  hasNext := hasNext

namespace Walking

variable {W : Type}

/-- What a move answers, and the walk after it. -/
def perform (k : Walking W) (w : W) : WalkMove → Checked (WalkReply × W)
  | .forth (.visit σ) => .ok (.visited (k.next σ w).1, (k.next σ w).2)
  | .forth .skip => do return (.done, ← k.skipArguments w)
  | .back => .ok (.undone (k.backtrack w).1, (k.backtrack w).2)
  | .backTo m => .ok (.done, k.backtrackTo w m)

/-- The walk after several moves. -/
def run (k : Walking W) : List WalkMove → W → Checked W
  | [], w => .ok w
  | m :: rest, w => do run k rest (← k.perform w m).2

/-- What several moves answer, each with what is seen of the walk after it. -/
def transcript {β : Type} (k : Walking W) (see : W → β) :
    List WalkMove → W → Checked (List (WalkReply × β))
  | [], _ => .ok []
  | m :: rest, w => do
    let (reply, w) ← k.perform w m
    return (reply, see w) :: (← transcript k see rest w)

end Walking

/-- A walk together with its states before the steps that were not taken back, newest first. -/
structure Remembered (W : Type) where
  now : W
  past : List W

namespace Remembered

variable {W : Type}

/-- Put the last state back in its place, if there is one. -/
def back : Remembered W → Bool × Remembered W
  | ⟨w, []⟩ => (false, ⟨w, []⟩)
  | ⟨_, v :: past⟩ => (true, ⟨v, past⟩)

/-- Put back the state after the given number of steps, if there were more. -/
def backTo (now : W) (past : List W) (steps : Nat) : Remembered W :=
  match past with
  | [] => ⟨now, []⟩
  | v :: past => if steps ≤ past.length then backTo v past steps else ⟨now, v :: past⟩

end Remembered

/-- Walking in the given way, but with every step taken back by putting the state before it back
in its place. -/
def Walking.remembering {W : Type} (k : Walking W) : Walking (Remembered W) where
  next σ c :=
    let (s, w) := k.next σ c.now
    (s, ⟨w, if s.isSome then c.now :: c.past else c.past⟩)
  skipArguments c := do return ⟨← k.skipArguments c.now, c.now :: c.past⟩
  backtrack c := c.back
  backtrackTo c m := .backTo c.now c.past m.steps
  mark c := ⟨c.past.length⟩
  hasNext c := k.hasNext c.now

end SaturationCore
