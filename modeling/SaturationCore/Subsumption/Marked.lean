/-
# Subsumption with marked places

The search for a way to map all literals can mark every place that a literal is mapped to. Whether
a place is free is then read off its mark, and not off the levels. A level counts the ways of its
literal: the way of number `n` leads to the place `n / 2`, with sides swapped if `n` is odd. When
the search comes back to a level, the mark that it had set is taken away first.
-/
import SaturationCore.Subsumption.Test

namespace SaturationCore

namespace Subsumption

/-- A literal that is being mapped: the number of the way to be tried next, how many bindings there
were before it, and the place it is mapped to. -/
structure Attempt where
  next : Nat
  savepoint : Savepoint
  chosen : Option Nat

/-- The level of a literal with everything still to be tried. -/
def Attempt.start (σ : TreeMatcher) : Attempt :=
  ⟨0, σ.savepoint, none⟩

/-- Try the ways of a literal from a number on, until one of them succeeds. Places that are marked
are left out, and so is swapping what is no equation. Reports the place that was found, and the
number of the way behind the last one tried. -/
def attempt (d : Clause) (l : Literal) (used : List Bool) (n : Nat) (σ : TreeMatcher) :
    Option Nat × Nat × TreeMatcher :=
  match _ : d.literals[n / 2]? with
  | none => (none, n, σ)
  | some target =>
    if used[n / 2]? = some true ∨ (n % 2 = 1 ∧ ¬ l.isEquality) then attempt d l used (n + 1) σ
    else
      match matchAlong σ l ⟨n / 2, target, n % 2 = 1⟩ with
      | (true, τ) => (some (n / 2), n + 1, τ)
      | (false, τ) => attempt d l used (n + 1) τ
termination_by 2 * d.size - n
decreasing_by
  all_goals
    have inside := (List.getElem?_eq_some_iff.1 ‹d.literals[n / 2]? = some _›).1
    rw [Clause.size]
    omega

section

variable {d : Clause} {l target : Literal} {used : List Bool} {n place next : Nat}
  {σ τ : TreeMatcher}

theorem attempt_of_none (none : d.literals[n / 2]? = none) :
    attempt d l used n σ = (.none, n, σ) := by
  rw [attempt, none]

theorem attempt_of_left (here : d.literals[n / 2]? = some target)
    (left : used[n / 2]? = some true ∨ (n % 2 = 1 ∧ ¬ l.isEquality)) :
    attempt d l used n σ = attempt d l used (n + 1) σ := by
  rw [attempt, here]
  dsimp only
  rw [if_pos left]

theorem attempt_of_matched (here : d.literals[n / 2]? = some target)
    (free : ¬ (used[n / 2]? = some true ∨ (n % 2 = 1 ∧ ¬ l.isEquality)))
    (matched : matchAlong σ l ⟨n / 2, target, n % 2 = 1⟩ = (true, τ)) :
    attempt d l used n σ = (some (n / 2), n + 1, τ) := by
  rw [attempt, here]
  dsimp only
  rw [if_neg free, matched]

theorem attempt_of_failed (here : d.literals[n / 2]? = some target)
    (free : ¬ (used[n / 2]? = some true ∨ (n % 2 = 1 ∧ ¬ l.isEquality)))
    (failed : matchAlong σ l ⟨n / 2, target, n % 2 = 1⟩ = (false, τ)) :
    attempt d l used n σ = attempt d l used (n + 1) τ := by
  rw [attempt, here]
  dsimp only
  rw [if_neg free, failed]

/-- A place is found by a way that was still to be tried. -/
theorem lt_of_attempt (found : attempt d l used n σ = (some place, next, τ)) :
    n < 2 * d.size ∧ n < next := by
  induction n, σ using attempt.induct d l used with
  | case1 n σ none =>
      rw [attempt_of_none none] at found
      cases found
  | case2 n σ target here left ih =>
      rw [attempt_of_left here left] at found
      exact ⟨Nat.lt_of_succ_lt (ih found).1, Nat.lt_of_succ_lt (ih found).2⟩
  | case3 n σ target here free ω matched =>
      rw [attempt_of_matched here free matched] at found
      cases found
      have inside := (List.getElem?_eq_some_iff.1 here).1
      rw [Clause.size]
      exact ⟨by omega, Nat.lt_succ_self n⟩
  | case4 n σ target here free ω failed ih =>
      rw [attempt_of_failed here free failed] at found
      exact ⟨Nat.lt_of_succ_lt (ih found).1, Nat.lt_of_succ_lt (ih found).2⟩

end

/-- A measure of what is still to be tried. -/
def leftOver (c d : Clause) : List Attempt → Nat
  | [] => 0
  | level :: outer =>
    (2 * d.size - level.next + 1) * share d (c.size - outer.length) + leftOver c d outer

/-- Reaching the level of the next literal adds less than trying a way takes away. -/
theorem leftOver_descend_lt {c d : Clause} {level : Attempt} {outer : List Attempt} {next : Nat}
    (chosen : Option Nat) (σ : TreeMatcher) (inside : outer.length < c.size)
    (tried : level.next < 2 * d.size ∧ level.next < next) :
    leftOver c d (.start σ :: ⟨next, level.savepoint, chosen⟩ :: outer) <
      leftOver c d (level :: outer) := by
  obtain ⟨behind, split⟩ := Nat.exists_eq_add_of_lt inside
  have front : c.size - (outer.length + 1) = behind := by omega
  have back : c.size - outer.length = behind + 1 := by omega
  have positive := share_pos d behind
  have fewer : 2 * d.size - next + 1 ≤ 2 * d.size - level.next := by omega
  have here := Nat.mul_le_mul_right (share d (behind + 1)) fewer
  have below : share d (behind + 1) = (2 * d.size + 1) * share d behind + share d behind := by
    rw [share, ← Nat.succ_mul]
  simp only [leftOver, Attempt.start, List.length_cons, front, back, Nat.sub_zero,
    Nat.succ_mul (2 * d.size - level.next)]
  omega

/-- The marks without that of a place that is given up. -/
def unmark (used : List Bool) : Option Nat → List Bool
  | some place => used.set place false
  | none => used

/-- Map the literals of a clause from the first level on, the one reached last, onto literals of
another one at places that are not marked. -/
def searchMarked (c d : Clause) (start : Savepoint) (levels : List Attempt) (used : List Bool)
    (σ : TreeMatcher) : Bool × TreeMatcher :=
  match levels with
  | [] => (false, σ.truncate start.bindings)
  | level :: outer =>
    match _ : c.literals[outer.length]? with
    | none => (false, σ)
    | some l =>
      match _ : attempt d l (unmark used level.chosen) level.next
          (σ.truncate level.savepoint.bindings) with
      | (none, _, σ) => searchMarked c d start outer (unmark used level.chosen) σ
      | (some place, next, σ) =>
        if outer.length + 1 = c.size then (true, σ)
        else
          searchMarked c d start
            (.start σ :: ⟨next, level.savepoint, some place⟩ :: outer)
            ((unmark used level.chosen).set place true) σ
termination_by leftOver c d levels
decreasing_by
  · have := share_pos d (c.size - outer.length)
    rw [leftOver]
    exact Nat.lt_add_of_pos_left (Nat.mul_pos (Nat.succ_pos _) this)
  · have inside := (List.getElem?_eq_some_iff.1 ‹c.literals[outer.length]? = some l›).1
    have tried := lt_of_attempt ‹attempt d l _ level.next _ = (some place, next, σ)›
    exact leftOver_descend_lt (some place) σ inside tried

end Subsumption

/-- Make a clause subsume another by binding its variables, with marks on the places that literals
are mapped to. -/
def Clause.attemptMarked (c d : Clause) (σ : TreeMatcher) : Bool × TreeMatcher :=
  if d.size < c.size then (false, σ)
  else if c.literals.isEmpty then (true, σ)
  else
    Subsumption.searchMarked c d σ.savepoint [.start σ] (List.replicate d.size false) σ

end SaturationCore
