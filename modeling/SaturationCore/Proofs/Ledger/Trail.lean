/-
# Histories of a ledger

Bindings are made, undone one by one or back to a savepoint, and given up all together. Whatever
the instances are, a ledger that is kept as a map with a trail answers every sequence of such
moves as a list of bindings does, and is the same ledger in two parts after it. So the parts
never get out of step: on the trail are the keys of the map, each once.

The trail keeps the order in which its variables were bound last, and undoing takes the newest
one. What was bound before a savepoint stays a part of the ledger as long as the trail is not
shorter than it was then, so that going back leads to just that ledger, whatever happened since.
-/
import SaturationCore.Ledger.Trail
import SaturationCore.Proofs.Ledger.Acyclic

namespace SaturationCore

/-- Something that is done with a ledger. -/
inductive LedgerMove (ι : Type) where
  | bind (v : Variable) (value : ι)
  /-- Undo the newest binding. -/
  | backtrack
  /-- Undo every binding made after a savepoint. -/
  | backtrackTo (moment : Savepoint)
  | clear

variable {ι : Type}

namespace LedgerMove

/-- The variable that the move binds. -/
def bound? : LedgerMove ι → Option Variable
  | bind v _ => some v
  | _ => none

/-- How many variables were bound since `v` was bound last. -/
def age (moves : List (LedgerMove ι)) (v : Variable) : Nat :=
  (moves.reverse.filterMap bound?).idxOf v

/-- What several moves answer, and the state after them. -/
def run {S : Type} (perform : S → LedgerMove ι → Checked (Option Variable × S)) :
    List (LedgerMove ι) → S → Checked (List (Option Variable) × S)
  | [], s => .ok ([], s)
  | m :: rest, s => do
    let made ← perform s m
    let later ← run perform rest made.2
    return (made.1 :: later.1, later.2)

theorem run_cons_eq_ok_iff {S : Type} {perform : S → LedgerMove ι → Checked (Option Variable × S)}
    {m : LedgerMove ι} {rest : List (LedgerMove ι)} {s t : S} {answers : List (Option Variable)} :
    run perform (m :: rest) s = .ok (answers, t) ↔ ∃ answer between later,
      perform s m = .ok (answer, between) ∧ run perform rest between = .ok (later, t) ∧
        answers = answer :: later := by
  rw [run, bind_eq_ok_iff]
  constructor
  · rintro ⟨⟨answer, between⟩, moved, ran⟩
    obtain ⟨⟨later, _⟩, onward, ⟨⟩⟩ := bind_eq_ok_iff.1 ran
    exact ⟨answer, between, later, moved, onward, rfl⟩
  · rintro ⟨answer, between, later, moved, ran, rfl⟩
    exact ⟨_, moved, bind_eq_ok_iff.2 ⟨_, ran, rfl⟩⟩

variable {moves : List (LedgerMove ι)} {m : LedgerMove ι}

theorem age_append_bind (moves : List (LedgerMove ι)) (u v : Variable) (value : ι) :
    age (moves ++ [.bind v value]) u = if v = u then 0 else age moves u + 1 := by
  have newest : bound? (.bind v value : LedgerMove ι) = some v := rfl
  rw [age, List.reverse_append, List.reverse_singleton, List.singleton_append,
    List.filterMap_cons_some newest, List.idxOf_cons, cond_eq_ite]
  simp only [beq_iff_eq]
  rfl

theorem age_append_other (moves : List (LedgerMove ι)) (other : m.bound? = none) (v : Variable) :
    age (moves ++ [m]) v = age moves v := by
  rw [age, List.reverse_append, List.reverse_singleton, List.singleton_append,
    List.filterMap_cons_none other]
  rfl

end LedgerMove

/-- What a move answers, and the map and the trail after it. Only undoing a single binding answers
something. -/
def TrailedMap.perform (s : TrailedMap ι) : LedgerMove ι → Checked (Option Variable × TrailedMap ι)
  | .bind v value => do return (none, ← s.bind v value)
  | .backtrack => .ok s.backtrack
  | .backtrackTo moment => do return (none, ← s.backtrackTo moment)
  | .clear => .ok (none, .empty)

namespace Ledger

variable {σ τ υ : Ledger ι} {moves : List (LedgerMove ι)} {m : LedgerMove ι} {v : Variable}
  {answer : Option Variable}

/-- What a move answers, and the ledger after it. Only undoing a single binding answers
something. -/
def perform (σ : Ledger ι) : LedgerMove ι → Checked (Option Variable × Ledger ι)
  | .bind v value => do return (none, ← σ.bind v value)
  | .backtrack => .ok σ.backtrack
  | .backtrackTo moment => do return (none, ← σ.backtrackTo moment)
  | .clear => .ok (none, .empty)

/-- A ledger grows by one binding after the other. -/
@[elab_as_elim]
theorem growth {motive : Ledger ι → Prop} (empty : motive .empty)
    (push : ∀ σ v value, motive σ → motive (push σ v value)) (σ : Ledger ι) : motive σ := by
  obtain ⟨bindings⟩ := σ
  induction bindings with
  | nil => exact empty
  | cons binding older ih => exact push ⟨older⟩ binding.1 binding.2 ih

/-- A move binds one variable more, or it leaves the oldest bindings. -/
theorem perform_cases (moved : σ.perform m = .ok (answer, τ)) :
    (∃ v value, m = .bind v value ∧ σ.get? v = none ∧ τ = σ.push v value) ∨
      m.bound? = none ∧ σ.Extends τ := by
  cases m with
  | bind v value =>
      obtain ⟨_, bound, ⟨⟩⟩ := bind_eq_ok_iff.1 moved
      obtain ⟨unbound, rfl⟩ := bind_iff_push.1 bound
      exact .inl ⟨v, value, rfl, unbound, rfl⟩
  | backtrack =>
      induction σ using growth with
      | empty =>
          cases moved
          exact .inr ⟨rfl, .refl _⟩
      | push older v value _ =>
          cases moved
          exact .inr ⟨rfl, older.extends_push v value⟩
  | backtrackTo moment =>
      obtain ⟨_, back, ⟨⟩⟩ := bind_eq_ok_iff.1 moved
      obtain ⟨-, rfl⟩ := backtrackTo_eq_ok_iff.1 back
      exact .inr ⟨rfl, List.drop_suffix _ _⟩
  | clear =>
      cases moved
      exact .inr ⟨rfl, List.nil_suffix⟩

/-! ## Variables on the trail -/

theorem trail_push (σ : Ledger ι) (v : Variable) (value : ι) :
    (σ.push v value).trail = σ.trail ++ [v] := by
  rw [trail, push, List.reverse_cons, List.map_append]
  rfl

theorem length_trail (σ : Ledger ι) : σ.trail.length = σ.size := by
  rw [trail, List.length_map, List.length_reverse, size]

theorem mem_trail_iff : v ∈ σ.trail ↔ σ.isBound v = true := by
  rw [isBound, get?, List.lookup_isSome_iff]
  simp [trail]

theorem Extends.sublist_trail (grew : τ.Extends σ) : σ.trail.Sublist τ.trail := by
  obtain ⟨fresh, split⟩ := grew.trail_eq
  rw [split]
  exact List.sublist_append_left _ _

/-- Every variable on the trail is there once, and behind those that were bound last before it. -/
structure Recorded (moves : List (LedgerMove ι)) (σ : Ledger ι) : Prop where
  nodup : σ.trail.Nodup
  ordered : σ.trail.Pairwise fun u v => LedgerMove.age moves v < LedgerMove.age moves u

theorem recorded_empty : (Ledger.empty : Ledger ι).Recorded [] :=
  ⟨List.nodup_nil, List.Pairwise.nil⟩

theorem Recorded.of_perform (recorded : σ.Recorded moves) (moved : σ.perform m = .ok (answer, τ)) :
    τ.Recorded (moves ++ [m]) := by
  rcases perform_cases moved with ⟨v, value, rfl, unbound, rfl⟩ | ⟨other, left⟩
  · have fresh : ∀ u ∈ σ.trail, u ≠ v := by
      rintro _ bound rfl
      rw [mem_trail_iff, isBound, unbound] at bound
      cases bound
    refine ⟨?_, ?_⟩
    · rw [trail_push]
      exact recorded.nodup.append (List.nodup_singleton v)
        (List.disjoint_singleton.2 fun bound => fresh v bound rfl)
    · rw [trail_push, List.pairwise_append]
      refine ⟨recorded.ordered.imp_of_mem fun {u w} hu hw older => ?_, List.pairwise_singleton _ _,
        fun u hu w hw => ?_⟩
      · rw [LedgerMove.age_append_bind, LedgerMove.age_append_bind, if_neg (fresh u hu).symm,
          if_neg (fresh w hw).symm]
        exact Nat.succ_lt_succ older
      · rw [List.mem_singleton.1 hw, LedgerMove.age_append_bind, LedgerMove.age_append_bind,
          if_pos rfl, if_neg (fresh u hu).symm]
        exact Nat.succ_pos _
  · refine ⟨recorded.nodup.sublist left.sublist_trail, ?_⟩
    simp only [LedgerMove.age_append_other moves other]
    exact recorded.ordered.sublist left.sublist_trail

theorem Recorded.of_run {later : List (LedgerMove ι)} {answers : List (Option Variable)}
    (recorded : σ.Recorded moves) (ran : LedgerMove.run perform later σ = .ok (answers, τ)) :
    τ.Recorded (moves ++ later) := by
  induction later generalizing σ moves answers with
  | nil =>
      cases ran
      rwa [List.append_nil]
  | cons m rest ih =>
      obtain ⟨_, _, _, moved, onward, -⟩ := LedgerMove.run_cons_eq_ok_iff.1 ran
      rw [List.append_cons]
      exact ih (recorded.of_perform moved) onward

/-! ## What stays of a ledger -/

/-- A move that does not leave fewer bindings leaves those that were there. -/
theorem Extends.of_perform (grew : τ.Extends σ) (moved : τ.perform m = .ok (answer, υ))
    (long : σ.size ≤ υ.size) : υ.Extends σ := by
  rcases perform_cases moved with ⟨v, value, -, -, rfl⟩ | ⟨-, left⟩
  · exact (τ.extends_push v value).trans grew
  · exact List.suffix_of_suffix_length_le grew left long

theorem Extends.of_run {later : List (LedgerMove ι)} {answers : List (Option Variable)}
    (grew : τ.Extends σ) (ran : LedgerMove.run perform later τ = .ok (answers, υ))
    (long : ∀ front answers κ, front <+: later → LedgerMove.run perform front τ = .ok (answers, κ) →
      σ.size ≤ κ.size) : υ.Extends σ := by
  induction later generalizing τ answers with
  | nil =>
      cases ran
      exact grew
  | cons m rest ih =>
      obtain ⟨answer, κ, _, moved, onward, -⟩ := LedgerMove.run_cons_eq_ok_iff.1 ran
      -- What is reached from here on was reached after one move more.
      have long' (front : List (LedgerMove ι)) (answers : List (Option Variable)) (κ' : Ledger ι)
          (before : front <+: rest) (reached : LedgerMove.run perform front κ = .ok (answers, κ')) :
          σ.size ≤ κ'.size :=
        long (m :: front) (answer :: answers) κ' (List.cons_prefix_cons.2 ⟨rfl, before⟩)
          (LedgerMove.run_cons_eq_ok_iff.2 ⟨_, _, _, moved, reached, rfl⟩)
      exact ih (grew.of_perform moved (long' [] [] κ List.nil_prefix rfl)) onward long'

/-! ## The two parts -/

/-- The instances of the variables, and the trail. -/
def parts (σ : Ledger ι) : TrailedMap ι := ⟨σ.get?, σ.trail⟩

theorem parts_push (σ : Ledger ι) (v : Variable) (value : ι) :
    (σ.push v value).parts = σ.parts.put v value := by
  rw [parts, trail_push]
  exact congrArg (TrailedMap.mk · _) (funext fun u => σ.get?_push u v value)

/-- Where the trail does not repeat itself, taking the newest variable out of the map leaves what
the older bindings say. -/
theorem parts_backtrack_push (σ : Ledger ι) (v : Variable) (value : ι)
    (nodup : (σ.push v value).trail.Nodup) :
    (σ.push v value).parts.backtrack = (some v, σ.parts) := by
  have unbound : σ.get? v = none := by
    rw [trail_push] at nodup
    have absent := List.disjoint_singleton.1 (List.disjoint_of_nodup_append nodup)
    rw [mem_trail_iff, isBound, Bool.not_eq_true, Option.isSome_eq_false_iff] at absent
    exact Option.isNone_iff_eq_none.1 absent
  have map_eq : (fun u => if u = v then none else σ.parts.map u) = σ.get? := by
    funext u
    split
    · next same => rw [same, unbound]
    · rfl
  rw [parts_push, TrailedMap.backtrack_put, map_eq]
  rfl

theorem parts_backtrack (nodup : σ.trail.Nodup) :
    σ.parts.backtrack = (σ.backtrack.1, σ.backtrack.2.parts) := by
  induction σ using growth with
  | empty => rfl
  | push older v value _ => exact older.parts_backtrack_push v value nodup

/-- Undoing one binding after the other comes to cutting the newest ones off at once. -/
theorem parts_unwind (nodup : σ.trail.Nodup) (count : Nat) :
    σ.parts.unwind count = (σ.truncate count).parts := by
  induction σ using growth with
  | empty =>
      have stays : truncate .empty count = (.empty : Ledger ι) := congrArg mk List.drop_nil
      rw [TrailedMap.unwind, stays]
      exact if_neg (Nat.not_lt_zero count)
  | push older v value ih =>
      have size_eq : (older.push v value).parts.trail.length = older.size + 1 :=
        length_trail (older.push v value)
      rw [TrailedMap.unwind, size_eq]
      by_cases more : count ≤ older.size
      · rw [trail_push] at nodup
        rw [if_pos (Nat.lt_succ_of_le more), parts_backtrack_push, ih nodup.of_append_left,
          truncate_push older v value more]
        rwa [trail_push]
      · rw [if_neg (mt Nat.le_of_lt_succ more), truncate, size_push,
          Nat.sub_eq_zero_of_le (Nat.lt_of_not_le more)]
        rfl

theorem parts_backtrackTo (nodup : σ.trail.Nodup) (moment : Savepoint) :
    σ.parts.backtrackTo moment = (σ.backtrackTo moment).map parts := by
  have same : σ.parts.trail.length = σ.size := σ.length_trail
  rw [TrailedMap.backtrackTo, backtrackTo, same, parts_unwind nodup]
  cases decide (moment.bindings ≤ σ.size) with
  | true => rfl
  | false => rfl

theorem parts_bind (σ : Ledger ι) (v : Variable) (value : ι) :
    σ.parts.bind v value = (σ.bind v value).map parts := by
  have same : σ.parts.isBound v = σ.isBound v := rfl
  rw [TrailedMap.bind, Ledger.bind, same, ← parts_push]
  cases σ.isBound v with
  | true => rfl
  | false => rfl

theorem parts_perform (nodup : σ.trail.Nodup) (m : LedgerMove ι) :
    σ.parts.perform m = (σ.perform m).map (Prod.map id parts) := by
  cases m with
  | bind v value =>
      rw [perform, TrailedMap.perform, parts_bind]
      cases σ.bind v value with
      | error fault => rfl
      | ok τ => rfl
  | backtrack => exact congrArg Except.ok (parts_backtrack nodup)
  | backtrackTo moment =>
      rw [perform, TrailedMap.perform, parts_backtrackTo nodup]
      cases σ.backtrackTo moment with
      | error fault => rfl
      | ok τ => rfl
  | clear => rfl

/-- Kept in two parts, a ledger answers every sequence of moves as the list of its bindings does. -/
theorem Recorded.run_parts (recorded : σ.Recorded moves) (later : List (LedgerMove ι)) :
    LedgerMove.run TrailedMap.perform later σ.parts =
      (LedgerMove.run perform later σ).map (Prod.map id parts) := by
  induction later generalizing σ moves with
  | nil => rfl
  | cons m rest ih =>
      rw [LedgerMove.run, LedgerMove.run, parts_perform recorded.nodup]
      cases moved : σ.perform m with
      | error fault => rfl
      | ok result =>
          show (do
            let later ← LedgerMove.run TrailedMap.perform rest result.2.parts
            return (result.1 :: later.1, later.2)) = Except.map _ (do
            let later ← LedgerMove.run perform rest result.2
            return (result.1 :: later.1, later.2))
          rw [ih (recorded.of_perform moved)]
          cases LedgerMove.run perform rest result.2 with
          | error fault => rfl
          | ok later => rfl

theorem Recorded.run_parts_eq_ok_iff (recorded : σ.Recorded moves) {later : List (LedgerMove ι)}
    {answers : List (Option Variable)} {t : TrailedMap ι} :
    LedgerMove.run TrailedMap.perform later σ.parts = .ok (answers, t) ↔
      ∃ τ, LedgerMove.run perform later σ = .ok (answers, τ) ∧ τ.parts = t := by
  rw [recorded.run_parts]
  cases LedgerMove.run perform later σ with
  | error fault => exact iff_of_false nofun (fun ⟨_, ran, _⟩ => nomatch ran)
  | ok result =>
      obtain ⟨given, τ⟩ := result
      constructor
      · rintro ⟨⟩
        exact ⟨τ, rfl, rfl⟩
      · rintro ⟨_, ⟨⟩, rfl⟩
        rfl

/-! ## What is answered -/

/-- Undoing takes the variable that was bound last of those that still are. -/
theorem Recorded.backtrack_eq_some_iff (recorded : σ.Recorded moves) :
    σ.backtrack.1 = some v ↔ σ.isBound v = true ∧
      ∀ u, σ.isBound u = true → u ≠ v → LedgerMove.age moves v < LedgerMove.age moves u := by
  simp only [← mem_trail_iff]
  induction σ using growth with
  | empty => exact iff_of_false nofun (fun bound => nomatch bound.1)
  | push older w value _ =>
      have ordered := recorded.ordered
      rw [trail_push, List.pairwise_append] at ordered
      have last (u : Variable) (bound : u ∈ older.trail) :
          LedgerMove.age moves w < LedgerMove.age moves u :=
        ordered.2.2 u bound w List.mem_cons_self
      rw [backtrack_push, Option.some.injEq, trail_push]
      simp only [List.mem_append, List.mem_singleton]
      constructor
      · rintro rfl
        exact ⟨.inr rfl, fun u bound other => last u (bound.resolve_right other)⟩
      · rintro ⟨bound | rfl, newest⟩
        · by_contra other
          exact Nat.lt_asymm (last v bound) (newest w (.inr rfl) other)
        · rfl

theorem Recorded.boundSince_iff (recorded : σ.Recorded moves) (v : Variable) (moment : Savepoint) :
    σ.boundSince v moment = true ↔ σ.isBound v = true ∧ moment.bindings ≤ σ.trail.idxOf v := by
  rw [boundSince, List.contains_iff_mem, ← mem_trail_iff]
  constructor
  · intro recent
    have bound := List.mem_of_mem_drop recent
    refine ⟨bound, Nat.not_lt.1 fun early => ?_⟩
    exact List.disjoint_take_drop recorded.nodup (Nat.le_refl moment.bindings)
      ((List.mem_take_iff_idxOf_lt bound).2 early) recent
  · rintro ⟨bound, late⟩
    rw [← List.take_append_drop moment.bindings σ.trail, List.mem_append] at bound
    refine bound.resolve_left fun early => ?_
    exact absurd ((List.mem_take_iff_idxOf_lt (List.mem_of_mem_take early)).1 early)
      (Nat.not_lt.2 late)

end Ledger

/-! ## The main result -/

/-- The move binds a variable that is not bound, or goes back to a savepoint that does not lie
ahead, or is one that may always be made. -/
def LedgerMove.Suits (s : TrailedMap ι) : LedgerMove ι → Prop
  | .bind v _ => s.map v = none
  | .backtrackTo moment => moment.bindings ≤ s.trail.length
  | .backtrack | .clear => True

namespace TrailedMap

variable {moves : List (LedgerMove ι)} {s t : TrailedMap ι} {answers : List (Option Variable)}

/-- What is promised of a map with a trail after some moves. -/
structure Disciplined (s : TrailedMap ι) (moves : List (LedgerMove ι)) : Prop where
  /-- Only moves that do not suit are refused. -/
  accepted_iff : ∀ m, (∃ result, s.perform m = .ok result) ↔ m.Suits s
  /-- No variable stands on the trail twice. -/
  nodup : s.trail.Nodup
  /-- What was bound last more recently stands later on the trail. -/
  ordered : s.trail.Pairwise fun u v => LedgerMove.age moves v < LedgerMove.age moves u
  /-- The keys of the map are the variables on the trail. -/
  mem_trail_iff : ∀ v, v ∈ s.trail ↔ (s.map v).isSome = true
  /-- Undoing answers the variable that was bound last of those that still are. -/
  backtrack_eq_some_iff : ∀ v, s.backtrack.1 = some v ↔ (s.map v).isSome = true ∧
    ∀ u, (s.map u).isSome = true → u ≠ v → LedgerMove.age moves v < LedgerMove.age moves u
  /-- Bound since a savepoint is what is bound and stands behind it on the trail. -/
  boundSince_iff : ∀ v moment, s.boundSince v moment = true ↔
    (s.map v).isSome = true ∧ moment.bindings ≤ s.trail.idxOf v
  /-- Whatever is done without making the trail shorter, going back restores both parts. -/
  restored : ∀ later answers t, LedgerMove.run perform later s = .ok (answers, t) →
    (∀ front answers between, front <+: later →
      LedgerMove.run perform front s = .ok (answers, between) →
      s.trail.length ≤ between.trail.length) →
    t.backtrackTo s.savepoint = .ok s

theorem accepted_iff (s : TrailedMap ι) (m : LedgerMove ι) :
    (∃ result, s.perform m = .ok result) ↔ m.Suits s := by
  cases m with
  | bind v value =>
      rw [perform, bind, isBound, LedgerMove.Suits]
      cases s.map v with
      | none => exact iff_of_true ⟨_, rfl⟩ rfl
      | some value => exact iff_of_false (fun ⟨_, accepted⟩ => nomatch accepted) nofun
  | backtrackTo moment =>
      rw [perform, backtrackTo, LedgerMove.Suits]
      by_cases reached : moment.bindings ≤ s.trail.length
      · rw [decide_eq_true reached]
        exact iff_of_true ⟨_, rfl⟩ reached
      · rw [decide_eq_false reached]
        exact iff_of_false (fun ⟨_, accepted⟩ => nomatch accepted) reached
  | backtrack => exact iff_of_true ⟨_, rfl⟩ trivial
  | clear => exact iff_of_true ⟨_, rfl⟩ trivial

theorem disciplined_parts {σ : Ledger ι} (recorded : σ.Recorded moves) :
    σ.parts.Disciplined moves where
  accepted_iff := σ.parts.accepted_iff
  nodup := recorded.nodup
  ordered := recorded.ordered
  mem_trail_iff _ := Ledger.mem_trail_iff
  backtrack_eq_some_iff v := by
    rw [Ledger.parts_backtrack recorded.nodup]
    exact recorded.backtrack_eq_some_iff
  boundSince_iff v moment := recorded.boundSince_iff v moment
  restored later answers t ran long := by
    obtain ⟨τ, ledgerRan, rfl⟩ := recorded.run_parts_eq_ok_iff.1 ran
    have grew : τ.Extends σ := by
      refine (Ledger.Extends.refl σ).of_run ledgerRan fun front answers κ before reached => ?_
      rw [← σ.length_trail, ← κ.length_trail]
      exact long front answers κ.parts before (recorded.run_parts_eq_ok_iff.2 ⟨κ, reached, rfl⟩)
    have moment : σ.parts.savepoint = σ.savepoint := congrArg Savepoint.mk σ.length_trail
    rw [moment, Ledger.parts_backtrackTo (recorded.of_run ledgerRan).nodup, grew.backtrackTo_eq]
    rfl

/-- In every history a ledger that is kept as a map with a trail does what the list of its bindings
does, and its trail is disciplined: it holds the keys of the map, each once and in the order in which
they were bound last, and undoing restores what was there before. -/
theorem trail_discipline (moves : List (LedgerMove ι)) :
    LedgerMove.run perform moves empty =
        (LedgerMove.run Ledger.perform moves .empty).map (Prod.map id Ledger.parts) ∧
      ∀ answers s, LedgerMove.run perform moves empty = .ok (answers, s) → s.Disciplined moves := by
  have both := Ledger.recorded_empty.run_parts moves
  refine ⟨both, fun answers s ran => ?_⟩
  obtain ⟨σ, ledgerRan, rfl⟩ := Ledger.recorded_empty.run_parts_eq_ok_iff.1 ran
  exact disciplined_parts (Ledger.recorded_empty.of_run ledgerRan)

/-- `X1` is bound, given up by going back to behind `X0`, and bound again after `X2` was bound and
undone. -/
theorem trail_discipline_bound_again :
    let x (i : Nat) : Variable := ⟨0, i⟩
    let moves : List (LedgerMove Term) := [.bind (x 0) (.var (x 1)), .bind (x 1) (.var (x 2)),
      .backtrackTo ⟨1⟩, .bind (x 2) (.var (x 1)), .backtrack, .bind (x 1) (.var (x 3))]
    ∃ s, LedgerMove.run perform moves empty =
        .ok ([none, none, none, none, some (x 2), none], s) ∧
      s.trail = [x 0, x 1] ∧ s.map (x 1) = some (.var (x 3)) ∧ s.map (x 2) = none ∧
      s.Disciplined moves := by
  intro x moves
  have ran : LedgerMove.run perform moves empty =
      .ok ([none, none, none, none, some (x 2), none],
        Ledger.parts ⟨[(x 1, .var (x 3)), (x 0, .var (x 1))]⟩) := (trail_discipline moves).1
  exact ⟨_, ran, rfl, rfl, rfl, (trail_discipline moves).2 _ _ ran⟩

end TrailedMap

end SaturationCore
