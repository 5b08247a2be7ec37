/-
# Clause subsumption

A clause subsumes another when instances for its variables map its literals onto
different literals of the other. Equations match either way round.

The literals are mapped one after the other. Each literal that is being mapped has a
level, which knows the place it is mapped to, the ways that were not tried yet and how
many bindings there were before it. Where no way is left, the search goes back to the
level before and undoes what was bound since. The ledger is read one level deep, so
the clauses may share variables.

Whether a place is taken is asked of the levels; `searchMarked` keeps a mark for it instead.
-/
import SaturationCore.Clause
import SaturationCore.Matching

namespace SaturationCore

namespace Subsumption

/-- Match a literal with another of equal polarity, as they are written. -/
def matchStraight (σ : TreeMatcher) (pattern target : Literal) : Bool × TreeMatcher :=
  if pattern.polarity = target.polarity then σ.attemptMatch pattern.atom target.atom
  else (false, σ)

/-- Match an equation with another of equal polarity, the sides of one swapped. -/
def matchSwapped (σ : TreeMatcher) (pattern target : Literal) : Bool × TreeMatcher :=
  if pattern.polarity = target.polarity ∧ pattern.isEquality ∧
      pattern.predicate? = target.predicate? then
    match pattern.args, target.args with
    | left :: right :: _, left' :: right' :: _ =>
      match σ.attemptMatch left right' with
      | (true, τ) => σ.settle (τ.attemptMatch right left')
      | (false, τ) => (false, τ)
    | _, _ => (false, σ)
  else (false, σ)

/-- A way to map a literal: onto the literal at a place of the other clause, as it is
written or with its sides swapped. -/
structure Way where
  place : Nat
  target : Literal
  swapped : Bool

/-- All ways to map a literal into a clause, in the order in which they are tried. -/
def ways (d : Clause) : List Way :=
  d.literals.zipIdx.flatMap fun (target, place) => [⟨place, target, false⟩, ⟨place, target, true⟩]

theorem length_ways (d : Clause) : (ways d).length = 2 * d.size := by
  have pairs (targets : List (Literal × Nat)) : (targets.flatMap fun (target, place) =>
      [Way.mk place target false, ⟨place, target, true⟩]).length = 2 * targets.length := by
    induction targets with
    | nil => rfl
    | cons first targets ih =>
      simp only [List.flatMap_cons, List.length_append, ih, List.length_cons, List.length_nil]
      omega
  rw [ways, pairs, List.length_zipIdx, Clause.size]

/-- Match a literal in one of the ways. -/
def matchAlong (σ : TreeMatcher) (pattern : Literal) (way : Way) : Bool × TreeMatcher :=
  if way.swapped then matchSwapped σ pattern way.target else matchStraight σ pattern way.target

/-- A literal that is being mapped, in front of those still to be mapped. -/
structure Level where
  pattern : Literal
  behind : List Literal
  untried : List Way
  savepoint : Savepoint
  chosen : Option Nat

/-- The level of a literal with everything still to be tried. -/
def Level.start (d : Clause) (pattern : Literal) (behind : List Literal) (σ : TreeMatcher) :
    Level :=
  ⟨pattern, behind, ways d, σ.savepoint, none⟩

/-- What trying a way of a literal counts, which is more than all that the level of the next
literal adds. -/
def share (d : Clause) : (behind : Nat) → Nat
  | 0 => 1
  | behind + 1 => (2 * d.size + 2) * share d behind

/-- A measure of what is still to be tried. Trying a way trades it for a level in front,
and a level counts more the more literals come behind it. -/
def workload (d : Clause) : List Level → Nat
  | [] => 0
  | level :: outer =>
    (level.untried.length + 1) * share d level.behind.length + workload d outer

theorem share_pos (d : Clause) (behind : Nat) : 0 < share d behind := by
  induction behind with
  | zero => exact Nat.one_pos
  | succ behind ih => exact Nat.mul_pos (Nat.succ_pos _) ih

private theorem workload_untried (d : Clause) (pattern : Literal) (behind : List Literal)
    (way : Way) (untried : List Way) (savepoint : Savepoint) (chosen chosen' : Option Nat)
    (outer : List Level) :
    workload d (⟨pattern, behind, way :: untried, savepoint, chosen⟩ :: outer) =
      share d behind.length +
        workload d (⟨pattern, behind, untried, savepoint, chosen'⟩ :: outer) := by
  simp only [workload, List.length_cons, Nat.add_mul, Nat.one_mul]
  omega

private theorem workload_start_lt (d : Clause) (next : Literal) (rest : List Literal)
    (σ : TreeMatcher) (outer : List Level) :
    workload d (.start d next rest σ :: outer) <
      share d (next :: rest).length + workload d outer := by
  have := share_pos d rest.length
  simp only [workload, Level.start, length_ways, List.length_cons, share, Nat.add_mul, Nat.one_mul]
  omega

/-- Map the literals of the levels, and those behind the first level, onto literals of a
clause at different places. The first level is the one that was reached last. -/
def search (d : Clause) (levels : List Level) (σ : TreeMatcher) : Bool × TreeMatcher :=
  match levels with
  | [] => (false, σ)
  | ⟨_, _, [], savepoint, _⟩ :: outer => search d outer (σ.truncate savepoint.bindings)
  | ⟨pattern, behind, way :: untried, savepoint, _⟩ :: outer =>
    let σ := σ.truncate savepoint.bindings
    if outer.any (·.chosen == some way.place) then
      search d (⟨pattern, behind, untried, savepoint, none⟩ :: outer) σ
    else
      match matchAlong σ pattern way with
      | (false, τ) => search d (⟨pattern, behind, untried, savepoint, none⟩ :: outer) τ
      | (true, τ) =>
        match behind with
        | [] => (true, τ)
        | next :: rest =>
          search d (.start d next rest τ ::
            ⟨pattern, next :: rest, untried, savepoint, some way.place⟩ :: outer) τ
termination_by workload d levels
decreasing_by
  · have := share_pos d ‹List Literal›.length
    simp only [workload, List.length_nil]
    omega
  · have := share_pos d behind.length
    rw [workload_untried d pattern behind way untried savepoint _ none]
    omega
  · have := share_pos d behind.length
    rw [workload_untried d pattern behind way untried savepoint _ none]
    omega
  · rw [workload_untried d pattern (next :: rest) way untried savepoint _ (some way.place)]
    exact workload_start_lt ..

end Subsumption

/-- Make a clause subsume another by binding its variables. -/
def Clause.attemptSubsumption (c d : Clause) (σ : TreeMatcher) : Bool × TreeMatcher :=
  if d.size < c.size then (false, σ)
  else
    match c.literals with
    | [] => (true, σ)
    | first :: behind => Subsumption.search d [.start d first behind σ] σ

/-- The ledger extended by instances that make a clause subsume another, if there
are any. -/
def Clause.subsumes? (c d : Clause) (σ : TreeMatcher) : Option TreeMatcher :=
  let (subsumed, τ) := c.attemptSubsumption d σ
  if subsumed then some τ else none

end SaturationCore
