/-
# Marks say what the levels say

The search that marks places goes through the same levels as the one that asks them. A place is
marked just when a level in front of which the search stands has mapped its literal there, and the
ways behind a number are those that are still to be tried. Ways that are left out without trying
would fail: swapping what is no equation is refused.
-/
import SaturationCore.Proofs.Subsumption.Search
import SaturationCore.Subsumption.Marked

namespace SaturationCore

/-- Cutting a ledger off twice at the same length is cutting it off once. -/
theorem Ledger.truncate_truncate {ι : Type} (σ : Ledger ι) (count : Nat) :
    (σ.truncate count).truncate count = σ.truncate count := by
  have fits : (σ.truncate count).size - count = 0 := by
    rw [size, truncate, List.length_drop, size]
    omega
  rw [truncate, fits, List.drop_zero]

namespace Subsumption

variable {c d : Clause} {l : Literal} {behind : List Literal} {used : List Bool}
  {places : List Nat} {place n : Nat} {σ τ : TreeMatcher} {savepoint : Savepoint}

/-! ## Ways by their numbers -/

/-- The ways of number `n` and above: first the one to the place `n / 2`, if there is one. -/
theorem drop_ways (d : Clause) (n : Nat) :
    (ways d).drop n = d.literals[n / 2]?.elim [] fun target =>
      ⟨n / 2, target, n % 2 = 1⟩ :: (ways d).drop (n + 1) := by
  have numbered (targets : List Literal) (first n : Nat) :
      ((targets.zipIdx first).flatMap fun entry =>
        [Way.mk entry.2 entry.1 false, ⟨entry.2, entry.1, true⟩])[n]? =
      targets[n / 2]?.map fun target => ⟨first + n / 2, target, n % 2 = 1⟩ := by
    induction targets generalizing first n with
    | nil => simp
    | cons target targets ih =>
        obtain _ | _ | n := n
        · rfl
        · rfl
        · have half : (n + 1 + 1) / 2 = n / 2 + 1 := Nat.add_div_right n Nat.two_pos
          have parity : (n + 1 + 1) % 2 = n % 2 := Nat.add_mod_right n 2
          rw [half, parity]
          exact (ih (first + 1) n).trans (by rw [Nat.add_right_comm]; rfl)
  have here : (ways d)[n]? = _ := numbered d.literals 0 n
  cases literal : d.literals[n / 2]? with
  | none =>
      rw [literal, Option.map_none, List.getElem?_eq_none_iff] at here
      exact List.drop_eq_nil_of_le here
  | some target =>
      rw [literal, Option.map_some, Nat.zero_add] at here
      obtain ⟨inside, first⟩ := List.getElem?_eq_some_iff.1 here
      rw [List.drop_eq_getElem_cons inside, first, Option.elim_some]

/-! ## Marks -/

/-- Just these places are marked, each of them once. -/
structure Marked (d : Clause) (used : List Bool) (places : List Nat) : Prop where
  length_eq : used.length = d.size
  marked_iff : ∀ place, used[place]? = some true ↔ place ∈ places
  once : places.Nodup

theorem marked_replicate (d : Clause) : Marked d (List.replicate d.size false) [] where
  length_eq := List.length_replicate
  marked_iff place := by
    rw [List.getElem?_replicate]
    split <;> simp
  once := List.nodup_nil

theorem Marked.add (marked : Marked d used places) (inside : place < d.size)
    (fresh : place ∉ places) : Marked d (used.set place true) (place :: places) where
  length_eq := by rw [List.length_set, marked.length_eq]
  marked_iff other := by
    rw [List.mem_cons]
    by_cases same : place = other
    · subst same
      rw [List.getElem?_set_self (marked.length_eq ▸ inside)]
      exact iff_of_true rfl (.inl rfl)
    · rw [List.getElem?_set_ne same, marked.marked_iff]
      exact (or_iff_right (Ne.symm same)).symm
  once := List.nodup_cons.2 ⟨fresh, marked.once⟩

theorem Marked.remove (marked : Marked d used (place :: places)) :
    Marked d (used.set place false) places where
  length_eq := by rw [List.length_set, marked.length_eq]
  marked_iff other := by
    by_cases same : place = other
    · subst same
      have fresh := (List.nodup_cons.1 marked.once).1
      rw [List.getElem?_set, if_pos rfl]
      split <;> simp [fresh]
    · rw [List.getElem?_set_ne same, marked.marked_iff, List.mem_cons]
      exact or_iff_right (Ne.symm same)
  once := (List.nodup_cons.1 marked.once).2

/-! ## Levels -/

/-- Asking the levels whether a place is taken is looking at its mark. -/
theorem Marked.any_chosen_iff {outer : List Level} (marked : Marked d used (taken outer)) :
    outer.any (·.chosen == some place) = true ↔ used[place]? = some true := by
  rw [Subsumption.any_chosen_iff, marked.marked_iff]

/-- How a search goes on from what trying the ways of a literal came to. -/
def goOn (d : Clause) (l : Literal) (behind : List Literal) (savepoint : Savepoint)
    (outer : List Level) : Option Nat × Nat × TreeMatcher → Bool × TreeMatcher
  | (none, _, τ) => search d outer τ
  | (some place, next, τ) =>
    match behind with
    | [] => (true, τ)
    | first :: rest =>
      search d (.start d first rest τ ::
        ⟨l, first :: rest, (ways d).drop next, savepoint, some place⟩ :: outer) τ

theorem matchAlong_swapped {w : Way} (swapped : w.swapped = true) (other : l.isEquality ≠ true) :
    matchAlong σ l w = (false, σ) := by
  rw [matchAlong, if_pos swapped, matchSwapped, if_neg fun conditions => other conditions.2.1]

theorem eq_of_matchAlong_failure {w : Way} (failed : matchAlong σ l w = (false, τ)) : τ = σ := by
  have settled := settled_matchAlong σ l w
  rw [failed] at settled
  cases settled
  rfl

/-- Searching from a level on is trying the ways left there, and going on. -/
theorem search_level {outer : List Level} (marked : Marked d used (taken outer))
    (chosen : Option Nat) (back : τ.truncate savepoint.bindings = σ) :
    search d (⟨l, behind, (ways d).drop n, savepoint, chosen⟩ :: outer) τ =
      goOn d l behind savepoint outer (attempt d l used n σ) := by
  induction n, σ using attempt.induct d l used generalizing τ chosen with
  | case1 n σ none =>
      rw [attempt_of_none none, drop_ways, none, Option.elim_none, search, back]
      rfl
  | case2 n σ target here left ih =>
      have stays : σ.truncate savepoint.bindings = σ := back ▸ τ.truncate_truncate _
      rw [attempt_of_left here left, drop_ways, here, Option.elim_some, search, back,
        ← ih none stays]
      split
      · rfl
      · next free =>
          rw [marked.any_chosen_iff] at free
          obtain ⟨odd, other⟩ := left.resolve_left free
          rw [matchAlong_swapped (decide_eq_true odd) other]
  | case3 n σ target here free ω matched =>
      have unused : ¬ outer.any (·.chosen == some (n / 2)) = true :=
        fun again => free (.inl (marked.any_chosen_iff.1 again))
      rw [attempt_of_matched here free matched, drop_ways, here, Option.elim_some, search, back,
        if_neg unused, matched]
      cases behind with
      | nil => rfl
      | cons first rest => rfl
  | case4 n σ target here free ω failed ih =>
      have unused : ¬ outer.any (·.chosen == some (n / 2)) = true :=
        fun again => free (.inl (marked.any_chosen_iff.1 again))
      rw [attempt_of_failed here free failed, drop_ways, here, Option.elim_some, search, back,
        if_neg unused, failed]
      obtain rfl := eq_of_matchAlong_failure failed
      exact ih none (back ▸ τ.truncate_truncate _)

/-- A place that was found is one of the clause and was not marked, and a try that found none has
left the ledger as it was. -/
theorem attempt_cases (d : Clause) (l : Literal) (used : List Bool) (n : Nat) (σ : TreeMatcher) :
    (∃ next, attempt d l used n σ = (none, next, σ)) ∨
      ∃ place next τ, attempt d l used n σ = (some place, next, τ) ∧ place < d.size ∧
        used[place]? ≠ some true := by
  induction n, σ using attempt.induct d l used with
  | case1 n σ none => exact .inl ⟨n, attempt_of_none none⟩
  | case2 n σ target here left ih => rwa [attempt_of_left here left]
  | case3 n σ target here free ω matched =>
      exact .inr ⟨n / 2, n + 1, ω, attempt_of_matched here free matched,
        (List.getElem?_eq_some_iff.1 here).1, fun again => free (.inl again)⟩
  | case4 n σ target here free ω failed ih =>
      rw [attempt_of_failed here free failed]
      obtain rfl := eq_of_matchAlong_failure failed
      exact ih

/-- The levels of both searches, for the literals of a clause one after the other. -/
inductive Follows (c d : Clause) (start : Savepoint) : List Attempt → List Level → Prop where
  | nil : Follows c d start [] []
  | cons {level : Attempt} {l : Literal} {behind : List Literal} {outer : List Attempt}
      {outer' : List Level} :
      c.literals.drop outer.length = l :: behind → (outer = [] → level.savepoint = start) →
      Follows c d start outer outer' →
      Follows c d start (level :: outer)
        (⟨l, behind, (ways d).drop level.next, level.savepoint, level.chosen⟩ :: outer')

/-- The mark that is taken away is the one of the level that is tried again. -/
theorem Marked.free {level : Level} {outer : List Level}
    (marked : Marked d used (taken (level :: outer))) :
    Marked d (unmark used level.chosen) (taken outer) := by
  obtain ⟨pattern, behind, untried, savepoint, chosen⟩ := level
  cases chosen with
  | none => exact marked
  | some place => exact marked.remove

theorem behind_eq {depth : Nat} (here : c.literals.drop depth = l :: behind) :
    c.literals.drop (depth + 1) = behind := by
  rw [← List.tail_drop, here, List.tail_cons]

/-- What the first level looks like in the search that asks the levels, and how that goes on. -/
theorem Follows.first {start : Savepoint} {level : Attempt} {outer : List Attempt}
    {levels : List Level} (follows : Follows c d start (level :: outer) levels)
    (marked : Marked d used (taken levels)) (here : c.literals[outer.length]? = some l) :
    ∃ behind outer', c.literals.drop outer.length = l :: behind ∧
      (outer = [] → level.savepoint = start) ∧ Follows c d start outer outer' ∧
      Marked d (unmark used level.chosen) (taken outer') ∧
      ∀ σ, search d levels σ = goOn d l behind level.savepoint outer'
        (attempt d l (unmark used level.chosen) level.next
          (σ.truncate level.savepoint.bindings)) := by
  cases follows with
  | @cons _ l' behind _ outer' depth bottom below =>
      rw [← List.head?_drop, depth] at here
      cases here
      exact ⟨behind, outer', depth, bottom, below, marked.free, fun σ =>
        search_level marked.free level.chosen rfl⟩

theorem searchMarked_eq {start : Savepoint} {levels : List Attempt} {levels' : List Level}
    (follows : Follows c d start levels levels') (marked : Marked d used (taken levels'))
    (ground : levels = [] → σ.truncate start.bindings = σ) :
    searchMarked c d start levels used σ = search d levels' σ := by
  induction levels, used, σ using searchMarked.induct c d generalizing levels' with
  | case1 used σ =>
      cases follows
      rw [searchMarked, search, ground rfl]
  | case2 used σ level outer none =>
      cases follows with
      | cons depth =>
          rw [← List.head?_drop, depth] at none
          cases none
  | case3 used σ level outer l here next τ tried ih =>
      obtain ⟨behind, outer', -, bottom, below, free, answered⟩ := follows.first marked here
      have undone : τ = σ.truncate level.savepoint.bindings := by
        rcases attempt_cases d l (unmark used level.chosen) level.next
          (σ.truncate level.savepoint.bindings) with ⟨_, same⟩ | ⟨_, _, _, found, -⟩
        · cases tried.symm.trans same
          rfl
        · cases tried.symm.trans found
      rw [answered, tried, searchMarked, here]
      dsimp only
      rw [tried]
      refine ih below free fun last => ?_
      rw [undone, bottom last, Ledger.truncate_truncate]
  | case4 used σ level outer l here place next τ tried last =>
      obtain ⟨behind, outer', depth, -, -, -, answered⟩ := follows.first marked here
      have none : behind = [] := by
        rw [← behind_eq depth, List.drop_eq_nil_iff]
        exact Nat.le_of_eq last.symm
      rw [answered, tried, searchMarked, here, none]
      dsimp only
      rw [tried]
      dsimp only
      rw [if_pos last]
      rfl
  | case5 used σ level outer l here place next τ tried more ih =>
      obtain ⟨behind, outer', depth, bottom, below, free, answered⟩ := follows.first marked here
      rcases attempt_cases d l (unmark used level.chosen) level.next
        (σ.truncate level.savepoint.bindings) with ⟨_, same⟩ | ⟨_, _, _, found, inside, unmarked⟩
      · cases tried.symm.trans same
      · cases tried.symm.trans found
        rw [Ne, free.marked_iff] at unmarked
        rw [answered, tried, searchMarked, here]
        dsimp only
        rw [tried]
        dsimp only
        rw [if_neg more]
        cases behind with
        | nil =>
            have few := (List.drop_eq_nil_iff.1 (behind_eq depth)).antisymm
              (List.getElem?_eq_some_iff.1 here).1
            exact absurd few.symm more
        | cons first rest =>
            exact ih (.cons (behind_eq depth) (absurd · (List.cons_ne_nil _ _))
              (.cons depth bottom below)) (free.add inside unmarked)
                (absurd · (List.cons_ne_nil _ _))

end Subsumption

/-- Marks on the places change nothing about the subsumption test. -/
theorem Clause.attemptMarked_eq (c d : Clause) (σ : TreeMatcher) :
    c.attemptMarked d σ = c.attemptSubsumption d σ := by
  rw [attemptMarked, attemptSubsumption]
  split
  · rfl
  · cases all : c.literals with
    | nil => rfl
    | cons first behind =>
        exact Subsumption.searchMarked_eq (.cons all (fun _ => rfl) .nil)
          (Subsumption.marked_replicate d) (absurd · (List.cons_ne_nil _ _))

end SaturationCore
