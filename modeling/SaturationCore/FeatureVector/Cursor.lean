/-
# Cursors over feature vectors

A cursor enumerates the payloads of the vectors that are at most, or at least, a
query at every place, in lexicographic order. It walks the trie depth first and
rests at a filled slot. Of every level on the way there it keeps the branches behind
the one taken. To go on it takes the next branch on the deepest level that has one,
and descends from there through the first branches that may be entered.

Branches ascend, so a walk below the query gives a level up at the first number above
the query's, and a walk above the query, once it has found a number that is large
enough, need not look at those behind it.
-/
import SaturationCore.FeatureVector.Trie

namespace SaturationCore

/-- Which vectors a cursor enumerates. -/
inductive Bound where
  /-- Those at most the query, whose clauses could subsume the query's. -/
  | atMost
  /-- Those at least the query, whose clauses the query's could subsume. -/
  | atLeast
deriving DecidableEq, Repr

namespace Bound

variable {α : Type}

/-- Whether a stored number stands in the wanted relation to the query's. -/
def admits (b : Bound) (query stored : Nat) : Bool :=
  match b with
  | .atMost => stored ≤ query
  | .atLeast => query ≤ stored

/-- The first branch of a row that may be entered, and those behind it. -/
def first? (b : Bound) (n : Nat) :
    List (Nat × Trie α) → Option (Trie α × List (Nat × Trie α))
  | [] => none
  | (m, below) :: later =>
    if b.admits n m then some (below, later)
    else if b = .atMost then none
    else first? b n later

/-- The branch to be entered next of those behind one that was entered, and those
behind it. -/
def next? (b : Bound) (n : Nat) :
    List (Nat × Trie α) → Option (Trie α × List (Nat × Trie α))
  | [] => none
  | (m, below) :: later => if b = .atLeast ∨ b.admits n m then some (below, later) else none

end Bound

/-- A level on the way to a slot: the branches behind the one taken there, and the
query's numbers at this place and behind it. -/
structure Fork (α : Type) where
  later : List (Nat × Trie α)
  number : Nat
  others : List Nat

namespace Trie

variable {α : Type}

mutual

/-- How many slots and rows of branches a trie has. -/
def count : Trie α → Nat
  | slot _ => 1
  | branches edges => countAll edges + 1

/-- How many slots and rows of branches there are behind several branches. -/
def countAll : List (Nat × Trie α) → Nat
  | [] => 0
  | (_, below) :: rest => count below + countAll rest

end

theorem count_pos (t : Trie α) : 0 < t.count := by
  cases t with
  | slot payload => exact Nat.one_pos
  | branches edges => exact Nat.succ_pos _

end Trie

namespace Bound

variable {α : Type} {b : Bound} {n : Nat} {edges later : List (Nat × Trie α)} {below : Trie α}

theorem count_first? (found : b.first? n edges = some (below, later)) :
    below.count + Trie.countAll later ≤ Trie.countAll edges := by
  induction edges with
  | nil => cases found
  | cons edge edges ih =>
      obtain ⟨m, t⟩ := edge
      rw [first?] at found
      rw [Trie.countAll]
      split at found
      · cases found
        exact Nat.le_refl _
      · split at found
        · cases found
        · exact Nat.le_trans (ih found) (Nat.le_add_left _ _)

theorem count_next? (found : b.next? n edges = some (below, later)) :
    below.count + Trie.countAll later ≤ Trie.countAll edges := by
  cases edges with
  | nil => cases found
  | cons edge edges =>
      obtain ⟨m, t⟩ := edge
      rw [next?] at found
      split at found
      · cases found
        exact Nat.le_refl _
      · cases found

end Bound

namespace Fork

variable {α : Type}

/-- A measure of what is left behind the levels of a walk. -/
def workload : List (Fork α) → Nat
  | [] => 0
  | f :: outer => Trie.countAll f.later + workload outer

/-- Descend from a trie through the first branches that may be entered, noting the
levels passed, the deepest first. There is a payload when the way ends at a filled
slot. -/
def descend (b : Bound) : Trie α → List Nat → List (Fork α) → Option α × List (Fork α)
  | .slot payload, _, forks => (payload, forks)
  | .branches _, [], forks => (none, forks)
  | .branches edges, n :: query, forks =>
    match b.first? n edges with
    | none => (none, forks)
    | some (below, later) => descend b below query (⟨later, n, query⟩ :: forks)

/-- Take the next branch on the deepest level that has one, and give up the levels
below it. -/
def backtrack (b : Bound) : List (Fork α) → Option (Trie α × List Nat × List (Fork α))
  | [] => none
  | f :: outer =>
    match b.next? f.number f.later with
    | none => backtrack b outer
    | some (below, later) => some (below, f.others, { f with later } :: outer)

theorem workload_descend (b : Bound) (t : Trie α) (query : List Nat) (forks : List (Fork α)) :
    workload (descend b t query forks).2 < workload forks + t.count := by
  induction query generalizing t forks with
  | nil => cases t <;> exact Nat.lt_add_of_pos_right (Trie.count_pos _)
  | cons n query ih =>
      cases t with
      | slot payload => exact Nat.lt_add_of_pos_right (Trie.count_pos _)
      | branches edges =>
          rw [descend]
          cases found : b.first? n edges with
          | none => exact Nat.lt_add_of_pos_right (Trie.count_pos _)
          | some found' =>
              obtain ⟨below, later⟩ := found'
              have spent := Bound.count_first? found
              have rest := ih below (⟨later, n, query⟩ :: forks)
              rw [workload] at rest
              rw [Trie.count]
              dsimp only at rest ⊢
              omega

theorem workload_backtrack {b : Bound} {forks forks' : List (Fork α)} {t : Trie α}
    {query : List Nat} (moved : backtrack b forks = some (t, query, forks')) :
    workload forks' + t.count ≤ workload forks := by
  induction forks with
  | nil => cases moved
  | cons f outer ih =>
      rw [backtrack] at moved
      rw [workload]
      cases found : b.next? f.number f.later with
      | none =>
          rw [found] at moved
          exact Nat.le_add_left_of_le (ih moved)
      | some found' =>
          rw [found] at moved
          cases moved
          have spent := Bound.count_next? found
          rw [workload]
          dsimp only
          omega

/-- Descend from a trie, and go on from every dead end and empty slot, to a filled slot. -/
def reach (b : Bound) (t : Trie α) (query : List Nat) (forks : List (Fork α)) :
    Option α × List (Fork α) :=
  match descended : descend b t query forks with
  | (some payload, reached) => (some payload, reached)
  | (none, reached) =>
    match moved : backtrack b reached with
    | none => (none, [])
    | some (t', query', left) =>
      have : workload left + t'.count < workload forks + t.count := by
        have spent := workload_descend b t query forks
        rw [descended] at spent
        exact Nat.lt_of_le_of_lt (workload_backtrack moved) spent
      reach b t' query' left
termination_by workload forks + t.count

/-- Go on from a slot to the next filled one. -/
def resume (b : Bound) (forks : List (Fork α)) : Option α × List (Fork α) :=
  match backtrack b forks with
  | none => (none, [])
  | some (t, query, forks) => reach b t query forks

theorem reach_of_some {b : Bound} {t : Trie α} {query : List Nat} {forks reached : List (Fork α)}
    {payload : α} (descended : descend b t query forks = (some payload, reached)) :
    reach b t query forks = (some payload, reached) := by
  rw [reach]
  split
  · next same => exact same.symm.trans descended
  · next same => cases same.symm.trans descended

theorem reach_of_none {b : Bound} {t : Trie α} {query : List Nat} {forks reached : List (Fork α)}
    (descended : descend b t query forks = (none, reached)) :
    reach b t query forks = resume b reached := by
  rw [reach]
  split
  · next same => cases same.symm.trans descended
  · next same =>
      cases same.symm.trans descended
      split
      · next stuck => rw [resume, stuck]
      · next t' query' left moved =>
          have resumed : resume b reached = reach b t' query' left := by rw [resume, moved]
          exact resumed.symm

theorem workload_reach (b : Bound) (t : Trie α) (query : List Nat) (forks : List (Fork α)) :
    workload (reach b t query forks).2 < workload forks + t.count := by
  induction t, query, forks using reach.induct b with
  | case1 t query forks payload reached descended =>
      have spent := workload_descend b t query forks
      rw [descended] at spent
      rwa [reach_of_some descended]
  | case2 t query forks reached descended stuck =>
      rw [reach_of_none descended, resume, stuck]
      exact Nat.lt_of_lt_of_le (Trie.count_pos t) (Nat.le_add_left _ _)
  | case3 t query forks reached descended t' query' left moved less ih =>
      rw [reach_of_none descended, resume, moved]
      exact Nat.lt_trans ih less

theorem workload_resume (b : Bound) (forks : List (Fork α)) :
    (resume b forks).1 = none ∨ workload (resume b forks).2 < workload forks := by
  rw [resume]
  cases moved : backtrack b forks with
  | none => exact .inl rfl
  | some left =>
      obtain ⟨t, query, left⟩ := left
      exact .inr (Nat.lt_of_lt_of_le (workload_reach b t query left) (workload_backtrack moved))

end Fork

/-- An enumeration of payloads, at rest at the one that comes next: the way to its slot. -/
structure Cursor (α : Type) where
  bound : Bound
  upcoming : Option α
  forks : List (Fork α)

namespace Cursor

variable {α : Type}

/-- The cursor without a query. -/
def idle : Cursor α := ⟨.atMost, none, []⟩

/-- Start enumerating the vectors of an index within a bound of a query, which must
have the length of the index if that is fixed. -/
def start (ix : FeatureIndex α) (b : Bound) (query : List Nat) : Checked (Cursor α) := do
  match ix.length with
  | none => return idle
  | some length =>
    require (query.length == length) .wrongDimension
    match ix.root with
    | none => return idle
    | some t =>
      let (upcoming, forks) := Fork.reach b t query []
      return ⟨b, upcoming, forks⟩

/-- Whether a payload is left. -/
def hasNext (c : Cursor α) : Bool :=
  c.upcoming.isSome

/-- The next payload. The cursor goes on to the one after it. -/
def next (c : Cursor α) : Option α × Cursor α :=
  match c.upcoming with
  | none => (none, c)
  | some payload =>
    let (upcoming, forks) := Fork.resume c.bound c.forks
    (some payload, ⟨c.bound, upcoming, forks⟩)

/-- A measure of what is still to come. -/
def workload (c : Cursor α) : Nat :=
  if c.hasNext then Fork.workload c.forks + 1 else 0

theorem workload_next {c : Cursor α} (more : c.hasNext = true) :
    c.next.2.workload < c.workload := by
  obtain ⟨b, upcoming, forks⟩ := c
  obtain ⟨payload, rfl⟩ := Option.isSome_iff_exists.1 more
  have spent := Fork.workload_resume b forks
  rw [next, workload, workload, if_pos more]
  generalize Fork.resume b forks = rest at spent
  obtain ⟨_ | payload', left⟩ := rest
  · exact Nat.succ_pos _
  · exact Nat.succ_lt_succ (spent.resolve_left nofun)

/-- All payloads still to come. -/
def toList (c : Cursor α) : List α :=
  if more : c.hasNext then
    have := workload_next more
    c.next.1.toList ++ toList c.next.2
  else []
termination_by c.workload

end Cursor

namespace FeatureIndex

variable {α : Type}

/-- All payloads within a bound of a query. -/
def select (ix : FeatureIndex α) (b : Bound) (query : List Nat) : Checked (List α) :=
  return (← Cursor.start ix b query).toList

end FeatureIndex

end SaturationCore
