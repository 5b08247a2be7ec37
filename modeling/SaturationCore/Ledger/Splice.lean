/-
# Reading instances head by head

Instances are read one head at a time and are not built for it. What is still to be
read stands on a stack, the next piece first. A bound variable is not read itself:
its instance is put in front of what follows. Every piece says whether it belongs to
an instance, and those that do are read as they stand. So reading comes to an end
also where an instance mentions its own variable.
-/
import SaturationCore.Ledger.Matcher

namespace SaturationCore

/-- Something still to be read, and whether it belongs to an instance. -/
structure Excerpt (α : Type) where
  part : α
  inInstance : Bool

namespace Matcher

/-- Before anything of the subterm is read. -/
def start (s : Subterm) : List (Excerpt (List Cell)) :=
  [⟨s.cells, false⟩]

/-- Read one head. -/
def nextHead (σ : Matcher) : List (Excerpt (List Cell)) → Option (Head × List (Excerpt (List Cell)))
  | [] => none
  | ⟨[], _⟩ :: outer => nextHead σ outer
  | ⟨c :: cells, true⟩ :: outer => some (c.head, ⟨cells, true⟩ :: outer)
  | ⟨c :: cells, false⟩ :: outer =>
    match c.head.asVariable.bind σ.get? with
    | some t => nextHead σ (⟨t.cells, true⟩ :: ⟨cells, false⟩ :: outer)
    | none => some (c.head, ⟨cells, false⟩ :: outer)
-- A look-up uses up a cell outside of instances and adds one piece to the stack.
termination_by stack =>
  2 * (stack.flatMap fun e => if e.inInstance then [] else e.part).length + stack.length

end Matcher

namespace TreeMatcher

/-- Before anything of the tree is read. -/
def start (t : Term) : List (Excerpt Term) :=
  [⟨t, false⟩]

/-- Read one head. -/
def nextHead (σ : TreeMatcher) : List (Excerpt Term) → Option (Head × List (Excerpt Term))
  | [] => none
  | ⟨t, true⟩ :: later => some (t.head, t.args.map (⟨·, true⟩) ++ later)
  | ⟨t, false⟩ :: later =>
    match t.asVariable.bind σ.get? with
    | some u => nextHead σ (⟨u, true⟩ :: later)
    | none => some (t.head, t.args.map (⟨·, false⟩) ++ later)
termination_by stack => stack.countP fun e => !e.inInstance

end TreeMatcher

end SaturationCore
