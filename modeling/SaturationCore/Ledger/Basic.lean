/-
# Ledgers

A ledger records which instance each bound variable has, in the order in which
the bindings were made. Bindings are undone newest first, so a savepoint is just
the number of bindings made so far.

Ledgers are shared by three ways of reading them. Unification follows bindings
through instances, matching looks one level deep, and matching is done once over
subterms and once over trees. What is stored here is the same for all.
-/
import SaturationCore.Fault

namespace SaturationCore

/-- Bindings of variables to instances, newest first. -/
structure Ledger (ι : Type) where
  bindings : List (Variable × ι)

/-- A moment in the growth of a ledger: how many bindings had been made. -/
structure Savepoint where
  bindings : Nat
deriving DecidableEq, Repr

namespace Ledger

variable {ι : Type}

/-- The ledger without bindings. -/
def empty : Ledger ι := ⟨[]⟩

/-- How many variables are bound. -/
def size (σ : Ledger ι) : Nat :=
  σ.bindings.length

/-- The instance of a variable. -/
def get? (σ : Ledger ι) (v : Variable) : Option ι :=
  σ.bindings.lookup v

/-- Whether the variable has an instance. -/
def isBound (σ : Ledger ι) (v : Variable) : Bool :=
  (σ.get? v).isSome

/-- The bound variables in the order in which they were bound. -/
def trail (σ : Ledger ι) : List Variable :=
  σ.bindings.reverse.map (·.1)

/-- Record one more binding. -/
def push (σ : Ledger ι) (v : Variable) (value : ι) : Ledger ι :=
  ⟨(v, value) :: σ.bindings⟩

@[simp]
theorem size_push (σ : Ledger ι) (v : Variable) (value : ι) :
    (σ.push v value).size = σ.size + 1 := rfl

/-- The newest binding hides none of another variable. -/
theorem get?_push (σ : Ledger ι) (u v : Variable) (value : ι) :
    (σ.push v value).get? u = if u = v then some value else σ.get? u := by
  by_cases h : u = v
  · simp [get?, push, h]
  · simp [get?, push, List.lookup_cons, beq_eq_false_iff_ne.2 h, h]

/-- What holds of all instances and of one more holds of all instances with that one. -/
theorem forall_get?_push {motive : Variable → ι → Prop} {σ : Ledger ι} {v : Variable} {value : ι}
    (instances : ∀ u s, σ.get? u = some s → motive u s) (here : motive v value) :
    ∀ u s, (σ.push v value).get? u = some s → motive u s := by
  intro u s bound
  rw [get?_push] at bound
  split at bound
  · next same =>
      cases same
      cases bound
      exact here
  · exact instances u s bound

theorem isBound_push (σ : Ledger ι) (u v : Variable) (value : ι) :
    (σ.push v value).isBound u = true ↔ u = v ∨ σ.isBound u = true := by
  rw [isBound, isBound, get?_push]
  split <;> simp [*]

/-- Bind a variable, which must not be bound yet. -/
def bind (σ : Ledger ι) (v : Variable) (value : ι) : Checked (Ledger ι) := do
  require (!σ.isBound v) (.alreadyBound v)
  return σ.push v value

/-- The present moment. -/
def savepoint (σ : Ledger ι) : Savepoint :=
  ⟨σ.size⟩

/-- Undo the newest binding and say which variable it bound. -/
def backtrack (σ : Ledger ι) : Option Variable × Ledger ι :=
  match σ.bindings with
  | [] => (none, σ)
  | (v, _) :: older => (some v, ⟨older⟩)

theorem backtrack_push (σ : Ledger ι) (v : Variable) (value : ι) :
    (σ.push v value).backtrack = (some v, σ) := rfl

/-- Keep the oldest bindings, as many as given. -/
def truncate (σ : Ledger ι) (count : Nat) : Ledger ι :=
  ⟨σ.bindings.drop (σ.size - count)⟩

/-- What was bound after a moment does not matter to what is kept from it. -/
theorem truncate_push (σ : Ledger ι) (v : Variable) (value : ι) {count : Nat}
    (h : count ≤ σ.size) : (σ.push v value).truncate count = σ.truncate count := by
  have : σ.size + 1 - count = σ.size - count + 1 := by omega
  rw [truncate, size_push, this]
  rfl

/-- What is left of a try to extend the ledger. If it failed, all that it bound is undone. -/
def settle (σ : Ledger ι) : Bool × Ledger ι → Bool × Ledger ι
  | (true, τ) => (true, τ)
  | (false, τ) => (false, τ.truncate σ.size)

/-- Undo every binding made after a savepoint, which must not lie ahead. -/
def backtrackTo (σ : Ledger ι) (moment : Savepoint) : Checked (Ledger ι) := do
  require (moment.bindings ≤ σ.size) .futureSavepoint
  return σ.truncate moment.bindings

/-- Whether the variable was bound after a savepoint. -/
def boundSince (σ : Ledger ι) (v : Variable) (moment : Savepoint) : Bool :=
  (σ.trail.drop moment.bindings).contains v

end Ledger

end SaturationCore
