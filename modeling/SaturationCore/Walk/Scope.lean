/-
# Walks that keep track of scopes

Free variables are collected on a walk without recursion. A stack holds the terms that are still
to be entered. When an abstraction is entered its variable is put on a second stack, and a mark
behind the body tells when that scope is closed again. A scope can be opened inside another one of
the same variable; closing the inner one leaves the outer one open.

What is collected keeps the order of arrival. A variable that comes again is left where it is.
-/
import SaturationCore.Clause

namespace SaturationCore

/-- Keep a variable behind those that came before, unless it is one of them. -/
def Variable.keepOnce (v : Variable) (kept : List Variable) : List Variable :=
  if kept.contains v then kept else kept ++ [v]

/-- Something left to do on a walk: enter a term, or close a scope. -/
inductive Visit where
  | enter (t : Term)
  | unbind

/-- A walk that is under way. The innermost scope comes first. -/
structure ScopeWalk where
  stack : List Visit
  bound : List Variable
  free : List Variable

namespace ScopeWalk

/-- Before a term is entered. -/
def start (t : Term) : ScopeWalk :=
  ⟨[.enter t], [], []⟩

/-- Do what is on top of the stack. -/
def step (w : ScopeWalk) : Option ScopeWalk :=
  match w.stack with
  | [] => none
  | .unbind :: rest => some ⟨rest, w.bound.tail, w.free⟩
  | .enter (.var v) :: rest =>
    some ⟨rest, w.bound, if w.bound.contains v then w.free else v.keepOnce w.free⟩
  | .enter (.abstraction v body) :: rest =>
    some ⟨.enter body :: .unbind :: rest, v :: w.bound, w.free⟩
  | .enter (.app _ _ args) :: rest => some ⟨args.map .enter ++ rest, w.bound, w.free⟩

/-- More steps than are left. Every abstraction takes one more to close its scope. -/
def weight : List Visit → Nat
  | [] => 0
  | .unbind :: rest => weight rest + 1
  | .enter t :: rest => 2 * t.size + weight rest

theorem weight_map_enter (ts : List Term) (rest : List Visit) :
    weight (ts.map .enter ++ rest) = 2 * Term.sizeAll ts + weight rest := by
  induction ts with
  | nil => simp [Term.sizeAll]
  | cons t ts ih =>
    simp only [List.map_cons, List.cons_append, weight, Term.sizeAll, ih]
    omega

theorem weight_lt_of_step {w w' : ScopeWalk} (made : w.step = some w') :
    weight w'.stack < weight w.stack := by
  obtain ⟨stack, bound, free⟩ := w
  match stack with
  | [] => cases made
  | .unbind :: rest =>
    cases made
    exact Nat.lt_succ_self _
  | .enter (.var v) :: rest =>
    cases made
    simp only [weight, Term.size]
    omega
  | .enter (.abstraction v body) :: rest =>
    cases made
    simp only [weight, Term.size]
    omega
  | .enter (.app role s args) :: rest =>
    cases made
    simp only [weight_map_enter, weight, Term.size]
    omega

/-- Walk on to the end, and answer what was collected. -/
def run (w : ScopeWalk) : List Variable :=
  match _ : w.step with
  | none => w.free
  | some w' => run w'
termination_by weight w.stack
decreasing_by exact weight_lt_of_step ‹_›

end ScopeWalk

/-- The free variables of a term, collected on a walk. -/
def Term.collectFree (t : Term) : List Variable :=
  (ScopeWalk.start t).run

/-- The free variables of the literals, collected one literal after the other. -/
def Clause.collectFree (c : Clause) : List Variable :=
  (c.literals.flatMap (·.atom.collectFree)).foldl (fun kept v => v.keepOnce kept) []

end SaturationCore
