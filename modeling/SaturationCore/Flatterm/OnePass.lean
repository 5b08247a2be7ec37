/-
# Laying out a flatterm in one pass

While a sequence of heads is read from the left, a stack keeps the heads that still wait for
arguments, the innermost on top, each with how many it misses. A head without arguments ends a term.
That term is an argument of the head on top; if it was the last one, it ends the term of that head as
well, and so on down the stack. Where a term ends is only known then, so it is written back into the
cell of its head, which has long been passed.

Ends are words of 32 bits.

The heads of a tree come from a stack of trees: when a tree is taken off, its arguments are put there
in its place, the first on top.
-/
import SaturationCore.Flatterm.Basic
import SaturationCore.Term.Basic

namespace SaturationCore

namespace Term

/-- Take the head off the first tree of a stack. Its arguments come in its place. -/
def takeHead? : List Term → Option (Head × List Term)
  | [] => none
  | t :: stack => some (t.head, t.args ++ stack)

theorem sizeAll_append (ts us : List Term) : sizeAll (ts ++ us) = sizeAll ts + sizeAll us := by
  induction ts with
  | nil => exact (Nat.zero_add _).symm
  | cons t ts ih => rw [List.cons_append, sizeAll, sizeAll, ih, Nat.add_assoc]

theorem sizeAll_lt_of_takeHead? {stack rest : List Term} {h : Head}
    (taken : takeHead? stack = some (h, rest)) : sizeAll rest < sizeAll stack := by
  cases stack with
  | nil => cases taken
  | cons t stack =>
      cases taken
      rw [sizeAll_append, sizeAll]
      exact Nat.add_lt_add_right t.sizeAll_args_lt _

/-- The heads that come off a stack of trees, one after the other. -/
def takeHeads (stack : List Term) : List Head :=
  match _ : takeHead? stack with
  | none => []
  | some (h, rest) => h :: takeHeads rest
termination_by sizeAll stack
decreasing_by exact sizeAll_lt_of_takeHead? ‹takeHead? stack = some (h, rest)›

end Term

/-- A head that waits for arguments: its cell, and how many of them it misses. -/
structure Pending where
  start : Nat
  missing : Nat
deriving DecidableEq, Repr

/-- What a pass over a sequence of heads has made so far. -/
structure Pass where
  cells : Array Cell
  /-- The heads that wait for arguments, the innermost first. -/
  pending : List Pending
  /-- The term is complete. -/
  complete : Bool
deriving DecidableEq, Repr

namespace Pass

/-- Before the first head. -/
def start : Pass :=
  ⟨#[], [], false⟩

/-- Write where the term ends that starts at a cell. -/
def endAt (stop : Nat) (cells : Array Cell) (i : Nat) : Array Cell :=
  cells.modify i fun cell => { cell with after := stop }

/-- A term has ended at `stop`, and with it the term of each head that only missed this one. -/
def close (stop : Nat) (cells : Array Cell) : List Pending → Checked Pass
  | [] => .ok ⟨cells, [], true⟩
  | ⟨_, 0⟩ :: _ => .error .overflow
  | ⟨start, 1⟩ :: outer =>
      if start < cells.size then close stop (endAt stop cells start) outer
      else .error .outOfBounds
  | ⟨start, missing + 2⟩ :: outer => .ok ⟨cells, ⟨start, missing + 1⟩ :: outer, false⟩

/-- Read one more head. -/
def push (s : Pass) (h : Head) : Checked Pass := do
  require (!s.complete) .sequenceContinues
  let index := s.cells.size
  let cells := s.cells.push ⟨h, 0⟩
  if 0 < h.arity then
    return { s with cells, pending := ⟨index, h.arity⟩ :: s.pending }
  else
    let stop := (index + 1) % (1 <<< 32)
    close stop (endAt stop cells index) s.pending

end Pass

/-- The cells of a sequence of heads that is exactly one term, laid out in one pass. -/
def Flatterm.layOutInOnePass (hs : List Head) : Checked (Array Cell) := do
  let s ← hs.foldlM Pass.push Pass.start
  require s.complete .sequenceStops
  return s.cells

end SaturationCore
