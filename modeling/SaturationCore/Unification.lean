/-
# Unification

Unification extends a ledger until two subterms read the same, binding no more
than that needs. Work is done on a stack of pairs. Pairs of equal heads are
replaced by the pairs of their arguments, of which the last is worked off first;
a pair with an unbound variable asks for a binding, which the occurs check may
forbid. Quantifiers and abstractions unify with nothing but a variable.

Between two bindings every step lays open cells of the readings, so `reach`
bounds the steps; and every binding takes an unbound variable away, so the
variables bound the bindings.

`possiblyUnify` is a quick look before: it only compares heads along both
subterms, skipping what stands against a variable.
-/
import SaturationCore.Ledger.Unifier

namespace SaturationCore

/-- What working off pairs comes to under a fixed ledger. -/
inductive Frontier where
  /-- All pairs read the same. -/
  | solved
  /-- Some pair can never read the same. -/
  | clash
  /-- An unbound variable has to become a subterm, with these pairs left. -/
  | binding (v : Variable) (t : Subterm) (rest : List (Subterm × Subterm))

namespace Unifier

/-- Work off pairs until a variable has to be bound. -/
def frontier (σ : Unifier) : (steps : Nat) → List (Subterm × Subterm) → Frontier
  | _, [] => .solved
  | 0, _ :: _ => .clash
  | steps + 1, (a, b) :: rest =>
    let a := σ.deref a
    let b := σ.deref b
    match a.head, b.head with
    | .var u, .var v => if u = v then frontier σ steps rest else .binding u b rest
    | .var u, _ => .binding u b rest
    | _, .var v => .binding v a rest
    | x, y =>
      if x.isBinder || y.isBinder || x != y then .clash
      else frontier σ steps ((a.args.zip b.args).reverse ++ rest)

/-- The number of cells in pairs of subterms. -/
def cellCount : List (Subterm × Subterm) → Nat
  | [] => 0
  | (a, b) :: rest => a.size + b.size + cellCount rest

/-- Make all pairs read the same, with at most `bindings` new bindings. The answer
says whether that was possible and comes with the ledger as it stood at the end. -/
def solve : (bindings : Nat) → List (Subterm × Subterm) → Unifier → Bool × Unifier
  | bindings, pairs, σ =>
    match frontier σ (reach σ (cellCount pairs)) pairs with
    | .solved => (true, σ)
    | .clash => (false, σ)
    | .binding v t rest =>
      match bindings with
      | 0 => (false, σ)
      | bindings + 1 =>
        if occurs σ v t then (false, σ) else solve bindings rest (σ.push v t)

/-- A bound on the variables that could still be bound while two subterms are
unified: the variable leaves of both and of all instances. -/
def bindingBound (σ : Unifier) (a b : Subterm) : Nat :=
  (a.spelling ++ b.spelling ++ σ.bindings.flatMap (·.2.spelling)).countP (·.isVariable)

/-- Extend the ledger by a most general unifier of two subterms. When they have none
under it, what was bound on the way is undone. -/
def attempt (σ : Unifier) (a b : Subterm) : Bool × Unifier :=
  let (unified, τ) := solve (bindingBound σ a b) [(a, b)] σ
  if unified then (true, τ) else (false, τ.truncate σ.size)

/-- The ledger extended by a most general unifier of two subterms, if they have
one under it. -/
def unify (σ : Unifier) (a b : Subterm) : Option Unifier :=
  let (unified, τ) := σ.attempt a b
  if unified then some τ else none

/-- The ledger extended so that a variable and a subterm read the same. -/
def unifyVariable (σ : Unifier) (v : Variable) (t : Subterm) : Option Unifier :=
  σ.unify (Subterm.ofVariable v) t

end Unifier

namespace Subterm

/-- Compare heads from position `i` of one flatterm and `j` of another up to where
the subterms stop. What stands against a variable is skipped. -/
def headsAgree (a b : Flatterm) (i stopA j stopB : Nat) : Bool :=
  if i < stopA then
    if j < stopB then
      match a.head? i, b.head? j with
      | some (.var _), some (.var _) => headsAgree a b (i + 1) stopA (j + 1) stopB
      | some (.var _), some _ => headsAgree a b (i + 1) stopA (b.after j) stopB
      | some _, some (.var _) =>
        have := a.lt_after i
        headsAgree a b (a.after i) stopA (j + 1) stopB
      | some x, some y => x == y && headsAgree a b (i + 1) stopA (j + 1) stopB
      | _, _ => false
    else false
  else !(j < stopB)
termination_by stopA - i

/-- Whether nothing but repeated variables could keep two subterms from
unifying. -/
def possiblyUnify (a b : Subterm) : Bool :=
  headsAgree a.whole b.whole a.pos a.stop b.pos b.stop

end Subterm

end SaturationCore
