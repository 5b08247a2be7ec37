/-
# Reading a ledger through its instances

The ledger of a unifier is read transitively: the instance of a variable may
mention bound variables, whose instances are put in their places, and so on. A
ledger in which no variable is met again inside its own instance has a finite
reading, and unification only makes such ledgers.

On a way down through instances every bound variable is met at most once, so
going as many instances deep as there are bindings reads everything. How many
cells this can lay open is bounded by `reach`.

One-way matching can bind variables in a cycle, and can meet such a cycle before it is done: on
`f(X0, X0, X1)` and `f(a, X1, X0)` it binds `X1` to `X0`, then `X0` to `X1`, and then reads `X0`.
Following bindings without counting would go round for ever there; the readings here stop.
-/
import SaturationCore.Flatterm.Subterm
import SaturationCore.Ledger.Basic

namespace SaturationCore

/-- A ledger of subterms, read transitively. -/
abbrev Unifier := Ledger Subterm

namespace Unifier

/-- Follow bindings from a variable to its instance, at most `steps` times. -/
def derefWithin (σ : Unifier) : (steps : Nat) → Subterm → Subterm
  | 0, s => s
  | steps + 1, s =>
    match s.asVariable.bind σ.get? with
    | some t => derefWithin σ steps t
    | none => s

/-- Follow bindings up to an unbound variable or to what is no variable. On a cycle of bindings
there is neither, and this stops at one of its variables after as many steps as there are
bindings, where following them as long as there are any never would. -/
def deref (σ : Unifier) (s : Subterm) : Subterm :=
  derefWithin σ σ.size s

/-- A bound on the number of cells that show when `cells` cells are read through
the ledger: every level of instances multiplies it by the largest instance. -/
def reach (σ : Unifier) (cells : Nat) : Nat :=
  Nat.repeat (· * (σ.bindings.map (·.2.size)).foldl max 1) σ.size cells

/-- The heads of the instance that the bindings of a variable lead to. Any other
head stands for itself. -/
def unfold (σ : Unifier) : Head → List Head
  | .var v => (σ.deref (Subterm.ofVariable v)).spelling
  | h => [h]

/-- Compare two sequences of heads as they read. The same head reads the same, so
instances are looked into only where heads differ. Every step reads one head of
either side. -/
def equalHeads (σ : Unifier) : (steps : Nat) → List Head → List Head → Bool
  | _, [], [] => true
  | steps + 1, x :: as, y :: bs =>
    if x = y then equalHeads σ steps as bs
    else
      match σ.unfold x, σ.unfold y with
      | x :: xs, y :: ys => x == y && equalHeads σ steps (xs ++ as) (ys ++ bs)
      | _, _ => false
  | _, _, _ => false

/-- Whether two subterms read the same. -/
def equal (σ : Unifier) (a b : Subterm) : Bool :=
  σ.equalHeads (σ.reach (a.size + b.size)) a.spelling b.spelling

/-- Whether a variable shows at a leaf read at most `depth` instances deep. -/
def occursWithin (σ : Unifier) (v : Variable) : (depth : Nat) → Head → Bool
  | 0, h => h == .var v && !σ.isBound v
  | depth + 1, h =>
    match h with
    | .var u =>
      match σ.get? u with
      | some t => t.spelling.any (occursWithin σ v depth)
      | none => u == v
    | _ => false

/-- Whether a variable shows when the subterm is read. -/
def occurs (σ : Unifier) (v : Variable) (s : Subterm) : Bool :=
  s.spelling.any (σ.occursWithin v σ.size)

/-- What a head stands for when read at most `depth` instances deep. -/
def expandWithin (σ : Unifier) : (depth : Nat) → Head → List Head
  | 0, h => [h]
  | depth + 1, h =>
    match h.asVariable.bind σ.get? with
    | some t => t.spelling.flatMap (expandWithin σ depth)
    | none => [h]

/-- The heads of the subterm as it reads. -/
def instanceSpelling (σ : Unifier) (s : Subterm) : List Head :=
  s.spelling.flatMap (σ.expandWithin σ.size)

/-- The tree that the subterm reads as. -/
def apply (σ : Unifier) (s : Subterm) : Checked Term := do
  (← Subterm.ofSpelling (σ.instanceSpelling s)).toTerm

end Unifier

end SaturationCore
