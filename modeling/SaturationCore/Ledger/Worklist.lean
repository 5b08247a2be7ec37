/-
# Reading a ledger with a list of pending work

A ledger can be read with a stack of subterms that are still to be looked at. A turn takes the
top one, follows its bindings, and puts the arguments of what it comes to back on the stack.
Nothing in a turn bounds how many turns there are: on a cycle of bindings they go on for ever.

When two subterms are compared, both sides may have come to the very same place in memory.
Which subterms share a place cannot be told from what they hold, so a turn may then take the
shortcut or not.
-/
import SaturationCore.Ledger.Unifier

namespace SaturationCore

namespace Unifier

variable (σ : Unifier)

/-- Follow one binding, or answer when there is none. -/
def derefTurn (s : Subterm) : Subterm ⊕ Subterm :=
  match s.asVariable.bind σ.get? with
  | some t => .inl t
  | none => .inr s

/-- Look for a variable at the root of the topmost subterm. The arguments are put on the
stack in order, so the last one is looked at first. -/
def occursTurn (v : Variable) : List Subterm → List Subterm ⊕ Bool
  | [] => .inr false
  | s :: rest =>
    match (σ.deref s).head with
    | .var u => if u = v then .inr true else .inl rest
    | _ => .inl ((σ.deref s).args.reverse ++ rest)

/-- Write down the root of the topmost subterm. The first argument comes next. -/
def spellTurn : List Subterm × List Head → (List Subterm × List Head) ⊕ List Head
  | ([], heads) => .inr heads
  | (s :: rest, heads) => .inl ((σ.deref s).args ++ rest, heads ++ [(σ.deref s).head])

/-- Compare the roots of the topmost pair. -/
inductive CompareTurn : List (Subterm × Subterm) → List (Subterm × Subterm) ⊕ Bool → Prop where
  | finished : CompareTurn [] (.inr true)
  /-- Both sides may be known to be one subterm. -/
  | shared {a b : Subterm} {rest : List (Subterm × Subterm)} :
      σ.deref a = σ.deref b → CompareTurn ((a, b) :: rest) (.inl rest)
  | clash {a b : Subterm} {rest : List (Subterm × Subterm)} :
      (σ.deref a).head ≠ (σ.deref b).head → CompareTurn ((a, b) :: rest) (.inr false)
  /-- The arguments are compared later, the last ones first. -/
  | arguments {a b : Subterm} {rest : List (Subterm × Subterm)} :
      (σ.deref a).head = (σ.deref b).head →
      CompareTurn ((a, b) :: rest)
        (.inl (((σ.deref a).args.zip (σ.deref b).args).reverse ++ rest))

end Unifier

end SaturationCore
