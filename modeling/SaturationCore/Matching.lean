/-
# Matching

A pattern matches a target when instances for the pattern's variables make it
the target, which is taken as it stands. There are three ways to match, and they
differ in the ledger they fill:

- `Unifier.match?` fills a ledger that is read transitively. It refuses to bind a
  variable to a target that mentions it, and compares an instance it finds with
  the target as both read.
- `Matcher.match?` and `TreeMatcher.match?` fill a ledger that is read one level
  deep, over subterms and over trees. They compare instances as they stand.

None of them accepts a quantifier or an abstraction, and the last argument of a
pattern is matched first. A match that fails leaves the ledger as it was.
-/
import SaturationCore.Ledger.Matcher
import SaturationCore.Ledger.Unifier

namespace SaturationCore

/-- The weights of the left sides of some pairs together. -/
private def leftWeight {α β : Type} (weight : α → Nat) : List (α × β) → Nat
  | [] => 0
  | p :: rest => weight p.1 + leftWeight weight rest

private theorem leftWeight_zip_reverse_append_le {α β : Type} {weight : α → Nat}
    {total : List α → Nat} (cons : ∀ a as, total (a :: as) = weight a + total as)
    (as : List α) (bs : List β) (rest : List (α × β)) :
    leftWeight weight ((as.zip bs).reverse ++ rest) ≤ total as + leftWeight weight rest := by
  induction as generalizing bs rest with
  | nil => simp
  | cons a as ih =>
    cases bs with
    | nil => simp
    | cons b bs =>
      have := ih bs ((a, b) :: rest)
      simp only [List.zip_cons_cons, List.reverse_cons, List.append_assoc, List.singleton_append,
        leftWeight, cons] at *
      omega

namespace Subterm

/-- Match pairs of a pattern and a target, the newest pair first. How an instance
agrees with a target, and which targets a variable takes, is left open. The answer
says whether all pairs match and comes with the ledger as it stood at the end. -/
def matchPairs (agrees : Ledger Subterm → Subterm → Subterm → Bool)
    (takes : Variable → Subterm → Bool) :
    List (Subterm × Subterm) → Ledger Subterm → Bool × Ledger Subterm
  | [], σ => (true, σ)
  | (p, t) :: rest, σ =>
    match p.head with
    | .var v =>
      match σ.get? v with
      | some s => if agrees σ s t then matchPairs agrees takes rest σ else (false, σ)
      | none => if takes v t then matchPairs agrees takes rest (σ.push v t) else (false, σ)
    | h =>
      if h.isBinder || h != t.head then (false, σ)
      else matchPairs agrees takes ((p.args.zip t.args).reverse ++ rest) σ
termination_by pairs => leftWeight size pairs
decreasing_by
  · have := p.size_pos
    simp only [leftWeight]
    omega
  · have := p.size_pos
    simp only [leftWeight]
    omega
  · have := leftWeight_zip_reverse_append_le (fun _ _ => rfl : ∀ s rest, sizeAll (s :: rest) = _)
      p.args t.args rest
    have := p.sizeAll_args
    simp only [leftWeight]
    omega

end Subterm

namespace Unifier

/-- Match a pattern with a target in a ledger that is read transitively. -/
def attemptMatch (σ : Unifier) (pattern target : Subterm) : Bool × Unifier :=
  σ.settle <| Subterm.matchPairs equal (fun v t => !t.mentions v && t.isQuantifierFree)
    [(pattern, target)] σ

/-- The ledger extended so that the target is an instance of the pattern, if it can be. -/
def match? (σ : Unifier) (pattern target : Subterm) : Option Unifier :=
  let (matched, τ) := σ.attemptMatch pattern target
  if matched then some τ else none

end Unifier

namespace Matcher

/-- Match a pattern with a target in a ledger that is read one level deep. -/
def attemptMatch (σ : Matcher) (pattern target : Subterm) : Bool × Matcher :=
  σ.settle <| Subterm.matchPairs (fun _ s t => s == t) (fun _ t => t.isQuantifierFree)
    [(pattern, target)] σ

/-- The ledger extended so that the target is an instance of the pattern, if it can be. -/
def match? (σ : Matcher) (pattern target : Subterm) : Option Matcher :=
  let (matched, τ) := σ.attemptMatch pattern target
  if matched then some τ else none

end Matcher

namespace TreeMatcher

/-- Match pairs of a pattern and a target tree, the newest pair first. The answer
says whether all pairs match and comes with the ledger as it stood at the end. -/
def matchPairs : List (Term × Term) → TreeMatcher → Bool × TreeMatcher
  | [], σ => (true, σ)
  | (p, t) :: rest, σ =>
    match p.head with
    | .var v =>
      match σ.get? v with
      | some s => if s = t then matchPairs rest σ else (false, σ)
      | none => if t.isQuantifierFree then matchPairs rest (σ.push v t) else (false, σ)
    | h =>
      if h.isBinder || h != t.head then (false, σ)
      else matchPairs ((p.args.zip t.args).reverse ++ rest) σ
termination_by pairs => leftWeight Term.size pairs
decreasing_by
  · have := p.sizeAll_args_lt
    simp only [leftWeight]
    omega
  · have := p.sizeAll_args_lt
    simp only [leftWeight]
    omega
  · have := leftWeight_zip_reverse_append_le
      (fun _ _ => rfl : ∀ s rest, Term.sizeAll (s :: rest) = _) p.args t.args rest
    have := p.sizeAll_args_lt
    simp only [leftWeight]
    omega

/-- Match a pattern tree with a target tree. -/
def attemptMatch (σ : TreeMatcher) (pattern target : Term) : Bool × TreeMatcher :=
  σ.settle (matchPairs [(pattern, target)] σ)

/-- The ledger extended so that the target is an instance of the pattern, if it can be. -/
def match? (σ : TreeMatcher) (pattern target : Term) : Option TreeMatcher :=
  let (matched, τ) := σ.attemptMatch pattern target
  if matched then some τ else none

end TreeMatcher

end SaturationCore
