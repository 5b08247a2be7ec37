/-
# What a walk along an instance visits

What a walk along an instance has still to visit are argument positions: first the subterm it
starts from, and whenever a position is visited, the arguments of what it leads to take its place.
This agenda knows neither frames nor positions in cells. The open frames of a walk hold just the
positions on the agenda, the innermost frame the first ones, so the walk visits what is on the
agenda, read through the ledger of the moment.

Read through a ledger without cycles, a position is its head followed by the arguments. So a walk
that goes on under one ledger visits the heads of the instances of all positions, one after the
other.
-/
import SaturationCore.Proofs.Ledger.Splice
import SaturationCore.Proofs.Retrieval.Frames
import SaturationCore.Proofs.Walk.Moves

namespace SaturationCore

/-! ## The agenda -/

/-- The argument positions not yet visited, the next one first, and how many of them are
arguments of what was visited last. -/
structure Agenda where
  ahead : List Subterm
  opened : Nat

namespace Agenda

/-- Before the first step. -/
def start (s : Subterm) : Agenda := ⟨[s], 0⟩

/-- Visit the next position: what it leads to is answered, and its arguments come next. -/
def visit (σ : Unifier) : Agenda → Option Subterm × Agenda
  | ⟨[], _⟩ => (none, ⟨[], 0⟩)
  | ⟨a :: ahead, _⟩ => (some (σ.deref a), ⟨(σ.deref a).args ++ ahead, (σ.deref a).args.length⟩)

/-- Leave out the arguments of what was visited last. -/
def skip (g : Agenda) : Agenda := ⟨g.ahead.drop g.opened, 0⟩

/-- The agenda after a step. -/
def after (g : Agenda) : WalkStep → Agenda
  | .visit σ => (g.visit σ).2
  | .skip => g.skip

/-- The agenda after several steps. -/
def afterAll (g : Agenda) (steps : List WalkStep) : Agenda :=
  steps.foldl after g

end Agenda

/-! ## Positions in cells -/

namespace Flatterm

variable {t : Flatterm} {p n q : Nat}

/-- The last cell of some terms is a leaf. -/
theorem Stretch.after_last (stretch : t.Stretch p (n + 1) q) : t.after (q - 1) = q := by
  induction cells : q - p using Nat.strong_induction_on generalizing p n with
  | _ size ih =>
      obtain ⟨_, args, later⟩ := stretch.first
      have first := t.lt_after p
      have behind := later.le
      cases n with
      | succ n => exact ih (q - t.after p) (by omega) later rfl
      | zero =>
          rw [later.eq_of_zero] at args first
          cases arity : t.cells[p].head.arity with
          | zero =>
              rw [arity] at args
              rw [← args.eq_of_zero, Nat.add_sub_cancel, later.eq_of_zero, args.eq_of_zero]
          | succ m =>
              rw [arity] at args
              exact ih (q - (p + 1)) (by omega) args rfl

/-- Behind a subterm there is nothing more to skip. -/
theorem after_after (t : Flatterm) (p : Nat) : t.after (t.after p - 1) = t.after p := by
  by_cases inside : p < t.size
  · exact (Subterm.mk t p inside).stretch.after_last
  · have none : t.after p = p + 1 := by
      rw [after, Array.getElem?_eq_none (Nat.le_of_not_lt inside)]
      rfl
    rw [none, Nat.add_sub_cancel, none]

end Flatterm

/-- Consecutive terms and those behind them are consecutive. -/
theorem Subterm.consecutive_add {t : Flatterm} {p n q : Nat} (stretch : t.Stretch p n q) (m : Nat) :
    consecutive t p (n + m) = consecutive t p n ++ consecutive t q m := by
  induction n generalizing p with
  | zero =>
      rw [stretch.eq_of_zero, Nat.zero_add]
      rfl
  | succ n ih =>
      obtain ⟨inside, _, later⟩ := stretch.first
      rw [Nat.add_right_comm, consecutive, consecutive, dif_pos inside, dif_pos inside, ih later,
        List.cons_append]

/-! ## Frames and the agenda -/

namespace Frame

variable {f : Frame} {a : Subterm} {row : List Subterm}

/-- The terms in the frame that are left to visit. -/
def Holds (f : Frame) (row : List Subterm) : Prop :=
  f.whole.Stretch f.pos row.length f.stop ∧ Subterm.consecutive f.whole f.pos row.length = row

theorem holds_ofSubterm (s : Subterm) : (ofSubterm s).Holds [s] := by
  refine ⟨s.stretch, ?_⟩
  show Subterm.consecutive s.whole s.pos 1 = [s]
  rw [Subterm.consecutive, dif_pos s.pos_lt]
  rfl

/-- The terms of a stretch are held in a frame that goes along it. -/
theorem holds_consecutive {t : Flatterm} {p n q : Nat} (stretch : t.Stretch p n q) :
    Holds ⟨t, p, q⟩ (Subterm.consecutive t p n) := by
  have len : (Subterm.consecutive t p n).length = n := by
    obtain ⟨cells, more, found, layout⟩ := stretch
    exact (Subterm.consecutive_of_layout layout more found).1
  rw [Holds, len]
  exact ⟨stretch, rfl⟩

theorem holds_behindRoot (s : Subterm) : (behindRoot s).Holds s.args := by
  obtain ⟨_, args, _⟩ := s.stretch.first
  exact holds_consecutive args

/-- A frame that holds nothing has come to its end. -/
theorem Holds.nil (holds : f.Holds []) : f.hasNext = false ∧ f.peek = none := by
  have finished : f.pos = f.stop := holds.1.eq_of_zero
  have none : f.hasNext = false := by simp [hasNext, finished]
  refine ⟨none, ?_⟩
  rw [peek, none]
  rfl

/-- The first term that a frame holds comes next. Behind its head come its arguments and then the
other terms. -/
theorem Holds.cons (holds : f.Holds (a :: row)) :
    f.hasNext = true ∧ f.peek = some a ∧ Holds { f with pos := f.pos + 1 } (a.args ++ row) ∧
      Holds { f with pos := f.whole.after f.pos } row := by
  obtain ⟨stretch, terms⟩ := holds
  obtain ⟨inside, args, later⟩ := stretch.first
  rw [List.length_cons, Subterm.consecutive, dif_pos inside, List.cons.injEq] at terms
  obtain ⟨rfl, others⟩ := terms
  have more : f.hasNext = true :=
    decide_eq_true (Nat.lt_of_lt_of_le (f.whole.lt_after f.pos) later.le)
  have here : f.peek = some ⟨f.whole, f.pos, inside⟩ := by
    rw [peek, more, if_pos rfl, Subterm.at?, dif_pos inside]
  have rest : Holds { f with pos := f.whole.after f.pos } row := ⟨later, others⟩
  refine ⟨more, here, ?_, rest⟩
  have both := holds_consecutive (args.append later)
  rw [Subterm.consecutive_add args, others] at both
  exact both

end Frame

namespace Frames

variable {σ : Unifier} {f : Frame} {frames outer : List Frame} {a : Subterm}
  {row rest ahead : List Subterm} {g : Agenda}

/-- The terms in all frames that are left to visit, those of the innermost frame first. -/
inductive Hold : List Frame → List Subterm → Prop where
  | nil : Hold [] []
  | cons {f : Frame} {outer : List Frame} {row rest : List Subterm} :
      f.Holds row → Hold outer rest → Hold (f :: outer) (row ++ rest)

theorem hold_ofSubterm (s : Subterm) : Hold [.ofSubterm s] [s] :=
  .cons (Frame.holds_ofSubterm s) .nil

/-- The frames hold what is on the agenda, and skipping leaves out what was opened last. -/
inductive Follow : List Frame → Agenda → Prop where
  | intro {f : Frame} {outer : List Frame} {opened row rest : List Subterm} :
      0 < f.pos → f.Holds (opened ++ row) →
      Frame.Holds { f with pos := f.whole.after (f.pos - 1) } row → Hold outer rest →
      Follow (f :: outer) ⟨opened ++ row ++ rest, opened.length⟩

theorem Follow.hold (follow : Follow frames g) : Hold frames g.ahead := by
  obtain ⟨_, holds, _, outer⟩ := follow
  exact .cons holds outer

theorem Follow.ne_nil (follow : Follow frames g) : frames ≠ [] := by
  cases follow
  exact List.cons_ne_nil _ _

theorem Follow.opened_le (follow : Follow frames g) : g.opened ≤ g.ahead.length := by
  cases follow
  rw [List.append_assoc, List.length_append]
  exact Nat.le_add_right _ _

/-- A frame that has come to its end does not count. -/
theorem ended (finished : f.hasNext = false) (σ : Unifier) (outer : List Frame) :
    peek σ (f :: outer) = peek σ outer ∧ hasNext (f :: outer) = hasNext outer := by
  rw [peek, peek, hasNext, List.any_cons, finished, Bool.false_or,
    List.find?_cons_of_neg (by rw [finished]; exact Bool.false_ne_true)]
  exact ⟨rfl, rfl⟩

/-- When nothing is left, the walk has come to its end. -/
theorem Hold.stops (hold : Hold frames []) (σ : Unifier) :
    next? σ frames = none ∧ peek σ frames = none ∧ hasNext frames = false := by
  generalize nothing : ([] : List Subterm) = ahead at hold
  induction hold with
  | nil => exact ⟨rfl, rfl, rfl⟩
  | @cons f outer row rest holds hold ih =>
      obtain ⟨rfl, rfl⟩ := List.append_eq_nil_iff.1 nothing.symm
      obtain ⟨finished, none⟩ := holds.nil
      obtain ⟨next, others⟩ := ih rfl
      rw [(ended finished σ outer).1, (ended finished σ outer).2]
      refine ⟨?_, others⟩
      rw [next?, none, next]
      rfl

/-- Visiting the first position moves on behind its head, or opens a frame on its instance. Either
way its arguments come first then. -/
theorem exists_next (holds : f.Holds (a :: row)) (hold : Hold outer rest) (σ : Unifier) :
    ∃ reached changes, next? σ (f :: outer) = some (σ.deref a, reached, changes) ∧
      Follow reached ⟨(σ.deref a).args ++ (row ++ rest), (σ.deref a).args.length⟩ := by
  obtain ⟨-, here, inside, behind⟩ := holds.cons
  cases bound : a.asVariable.bind σ.get? with
  | none =>
      rw [Unifier.deref_of_free bound, ← List.append_assoc]
      refine ⟨_, [.moved f.pos], ?_, .intro (Nat.succ_pos f.pos) inside behind hold⟩
      rw [next?, here]
      dsimp only
      rw [bound]
  | some t =>
      -- The variable itself is a leaf, so the outer frame goes on right behind it.
      obtain ⟨v, root, -⟩ := Option.bind_eq_some_iff.1 bound
      have leaf : a.args = [] := by
        have none := a.length_args
        rw [Subterm.asVariable_eq_some.1 root] at none
        exact List.length_eq_zero_iff.1 none
      rw [leaf, List.nil_append] at inside
      have args : (Frame.behindRoot (σ.deref a)).Holds ((σ.deref a).args ++ []) := by
        rw [List.append_nil]
        exact Frame.holds_behindRoot _
      have entered : Follow (.behindRoot (σ.deref a) :: { f with pos := f.pos + 1 } :: outer)
          ⟨(σ.deref a).args ++ [] ++ (row ++ rest), (σ.deref a).args.length⟩ :=
        .intro (Nat.succ_pos _) args (Frame.holds_consecutive (.zero _ _)) (.cons inside hold)
      rw [List.append_nil] at entered
      refine ⟨_, [.opened, .moved f.pos], ?_, entered⟩
      rw [next?, here]
      dsimp only
      rw [bound]

/-- The first position on the agenda is the one that comes next. -/
theorem Hold.visits (hold : Hold frames (a :: ahead)) (σ : Unifier) :
    (∃ reached changes, next? σ frames = some (σ.deref a, reached, changes) ∧
        Follow reached ⟨(σ.deref a).args ++ ahead, (σ.deref a).args.length⟩) ∧
      peek σ frames = some (σ.deref a) ∧ hasNext frames = true := by
  generalize some : a :: ahead = positions at hold
  induction hold with
  | nil => cases some
  | @cons f outer row rest holds hold ih =>
      cases row with
      | nil =>
          -- The innermost frame has come to its end and is left on the way to the next one.
          obtain ⟨finished, none⟩ := holds.nil
          obtain ⟨⟨reached, changes, next, follow⟩, others⟩ := ih some
          rw [(ended finished σ outer).1, (ended finished σ outer).2]
          refine ⟨⟨reached, changes ++ [.left f], ?_, follow⟩, others⟩
          rw [next?, none, next]
          rfl
      | cons b row =>
          obtain ⟨rfl, rfl⟩ : a = b ∧ ahead = row ++ rest := List.cons.inj some
          obtain ⟨more, here, -⟩ := holds.cons
          refine ⟨exists_next holds hold σ, ?_, ?_⟩
          · rw [peek, List.find?_cons_of_pos more]
            simp [here]
          · rw [hasNext, List.any_cons, more, Bool.true_or]

/-- Skipping leaves out what was opened last, and then there is nothing more to skip. -/
theorem Follow.skips (follow : Follow frames g) :
    ∃ reached changes, skipArguments frames = .ok (reached, changes) ∧ Follow reached g.skip := by
  obtain @⟨f, outer, opened, row, rest, ahead, -, behind, hold⟩ := follow
  have settled :
      Frame.Holds ⟨f.whole, f.whole.after (f.whole.after (f.pos - 1) - 1), f.stop⟩ row := by
    rw [f.whole.after_after]
    exact behind
  have skipped :
      Follow ({ f with pos := f.whole.after (f.pos - 1) } :: outer) ⟨[] ++ row ++ rest, 0⟩ :=
    .intro (Nat.zero_lt_of_lt (f.whole.lt_after _)) behind settled hold
  refine ⟨{ f with pos := f.whole.after (f.pos - 1) } :: outer, [.moved f.pos], ?_, ?_⟩
  · rw [skipArguments, decide_eq_true ahead]
    rfl
  · rw [Agenda.skip, List.append_assoc, List.drop_left]
    exact skipped

end Frames

/-! ## Walks and the agenda -/

namespace InstanceWalk

variable {σ : Unifier} {w : InstanceWalk} {a : Subterm} {ahead : List Subterm} {g : Agenda}

/-- Visit the next head of the instance, and answer this head alone. -/
def nextHead (σ : Unifier) (w : InstanceWalk) : Option (Head × InstanceWalk) :=
  (w.next σ).1.map fun s => (s.head, (w.next σ).2)

/-- From here on the walk visits these positions, read through the ledger of the moment. -/
structure Visits (w : InstanceWalk) (ahead : List Subterm) : Prop where
  next_eq : ∀ σ, (w.next σ).1 = ahead.head?.map σ.deref
  peek_eq : ∀ σ, w.peek σ = (w.next σ).1
  hasNext_iff : ∀ σ, w.hasNext = false ↔ (w.next σ).1 = none
  supplies : ∀ σ : Unifier, σ.Acyclic →
    Supplies (nextHead σ) w (ahead.flatMap σ.instanceSpelling)

theorem hold_start (s : Subterm) : Frames.Hold (start s).frames [s] :=
  Frames.hold_ofSubterm s

theorem next_of_hold (hold : Frames.Hold w.frames (a :: ahead)) (σ : Unifier) :
    (w.next σ).1 = some (σ.deref a) ∧
      Frames.Follow (w.next σ).2.frames ⟨(σ.deref a).args ++ ahead, (σ.deref a).args.length⟩ := by
  obtain ⟨⟨reached, changes, next, follow⟩, -⟩ := hold.visits σ
  rw [InstanceWalk.next, next]
  exact ⟨rfl, follow⟩

theorem next_of_hold_nil (hold : Frames.Hold w.frames []) (σ : Unifier) :
    w.next σ = (none, w) := by
  rw [InstanceWalk.next, (hold.stops σ).1]

/-- A walk visits the positions that its frames hold. -/
theorem visits_of_hold (hold : Frames.Hold w.frames ahead) : w.Visits ahead where
  next_eq σ := by
    cases ahead with
    | nil => rw [next_of_hold_nil hold]; rfl
    | cons a ahead => exact (next_of_hold hold σ).1
  peek_eq σ := by
    cases ahead with
    | nil => rw [next_of_hold_nil hold, InstanceWalk.peek, (hold.stops σ).2.1]
    | cons a ahead => rw [(next_of_hold hold σ).1, InstanceWalk.peek, (hold.visits σ).2.1]
  hasNext_iff σ := by
    cases ahead with
    | nil => rw [next_of_hold_nil hold, InstanceWalk.hasNext, (hold.stops σ).2.2]; simp
    | cons a ahead => rw [(next_of_hold hold σ).1, InstanceWalk.hasNext, (hold.visits σ).2.2]; simp
  supplies σ hσ := by
    refine Supplies.of_agrees (motive := fun w hs => ∃ ahead, Frames.Hold w.frames ahead ∧
      hs = ahead.flatMap σ.instanceSpelling) ?_ ⟨ahead, hold, rfl⟩
    rintro w _ ⟨ahead, hold, rfl⟩
    cases ahead with
    | nil =>
        refine .inl ⟨?_, rfl⟩
        rw [nextHead, next_of_hold_nil hold]
        rfl
    | cons a ahead =>
        obtain ⟨next, follow⟩ := next_of_hold hold σ
        refine .inr ⟨(σ.deref a).head, (w.next σ).2, _, ?_, ?_, _, follow.hold, rfl⟩
        · rw [nextHead, next, Option.map_some]
        · rw [List.flatMap_cons, hσ.instanceSpelling_eq, List.flatMap_append]
          rfl

theorem skipArguments_of_follow (follow : Frames.Follow w.frames g) :
    ∃ skipped, w.skipArguments = .ok skipped ∧ Frames.Follow skipped.frames g.skip := by
  obtain ⟨reached, changes, skipped, later⟩ := follow.skips
  refine ⟨⟨reached, changes :: w.steps⟩, ?_, later⟩
  rw [skipArguments, List.isEmpty_eq_false_iff.2 follow.ne_nil, skipped]
  rfl

/-- A step leads on to the agenda after it. -/
theorem perform_of_follow (follow : Frames.Follow w.frames g) (step : WalkStep) :
    ∃ reply reached, walking.perform w (.forth step) = .ok (reply, reached) ∧
      Frames.Follow reached.frames (g.after step) := by
  cases step with
  | visit σ =>
      refine ⟨_, _, rfl, ?_⟩
      obtain ⟨_ | ⟨a, ahead⟩, opened⟩ := g
      · show Frames.Follow (w.next σ).2.frames ⟨[], 0⟩
        rw [next_of_hold_nil follow.hold]
        have none : opened = 0 := Nat.le_zero.1 follow.opened_le
        rwa [none] at follow
      · exact (next_of_hold follow.hold σ).2
  | skip =>
      obtain ⟨reached, skipped, later⟩ := skipArguments_of_follow follow
      refine ⟨.done, reached, ?_, later⟩
      show (do return (WalkReply.done, ← w.skipArguments)) = _
      rw [skipped]
      rfl

/-- Step by step a walk keeps to the agenda. -/
theorem run_of_follow (follow : Frames.Follow w.frames g) (steps : List WalkStep) :
    ∃ reached, walking.run (steps.map .forth) w = .ok reached ∧
      Frames.Follow reached.frames (g.afterAll steps) := by
  induction steps generalizing w g with
  | nil => exact ⟨w, rfl, follow⟩
  | cons step steps ih =>
      obtain ⟨reply, next, performed, later⟩ := perform_of_follow follow step
      obtain ⟨reached, run, follow⟩ := ih later
      refine ⟨reached, ?_, follow⟩
      rw [List.map_cons, Walking.run, performed]
      exact run

/-- A walk that was started and taken on holds the positions on the agenda. -/
theorem run_start (s : Subterm) {steps : List WalkStep} (first : steps.head? ≠ some .skip) :
    ∃ w, walking.run (steps.map .forth) (start s) = .ok w ∧
      Frames.Hold w.frames ((Agenda.start s).afterAll steps).ahead := by
  cases steps with
  | nil => exact ⟨start s, rfl, hold_start s⟩
  | cons step steps =>
      cases step with
      | visit σ =>
          obtain ⟨w, run, follow⟩ := run_of_follow (next_of_hold (hold_start s) σ).2 steps
          exact ⟨w, run, follow.hold⟩
      | skip => exact absurd rfl first

/-- A walk along an instance visits the instance. Wherever steps have led, through whatever ledgers
they were taken, the positions on the agenda are visited next. After the next visit these are the
arguments of what was visited and the others, and skipping leaves the others. -/
theorem visits_instance :
    (∀ (s : Subterm) (σ : Unifier), σ.Acyclic →
      Supplies (nextHead σ) (start s) (σ.instanceSpelling s)) ∧
    ∀ (s : Subterm) (steps : List WalkStep), steps.head? ≠ some .skip →
      ∃ w, walking.run (steps.map .forth) (start s) = .ok w ∧
        w.Visits ((Agenda.start s).afterAll steps).ahead ∧
        ∀ σ t, (w.next σ).1 = some t →
          (w.next σ).2.Visits (t.args ++ ((Agenda.start s).afterAll steps).ahead.tail) ∧
          ∃ skipped, (w.next σ).2.skipArguments = .ok skipped ∧
            skipped.Visits ((Agenda.start s).afterAll steps).ahead.tail := by
  refine ⟨fun s σ hσ => ?_, fun s steps first => ?_⟩
  · have supplied := (visits_of_hold (hold_start s)).supplies σ hσ
    rwa [List.flatMap_singleton] at supplied
  · obtain ⟨w, run, hold⟩ := run_start s first
    refine ⟨w, run, visits_of_hold hold, fun σ t visited => ?_⟩
    generalize ((Agenda.start s).afterAll steps).ahead = ahead at hold
    cases ahead with
    | nil =>
        rw [next_of_hold_nil hold] at visited
        cases visited
    | cons a ahead =>
        obtain ⟨next, follow⟩ := next_of_hold hold σ
        cases visited.symm.trans next
        obtain ⟨skipped, performed, later⟩ := skipArguments_of_follow follow
        rw [Agenda.skip, List.drop_left] at later
        exact ⟨visits_of_hold follow.hold, skipped, performed, visits_of_hold later.hold⟩

/-- `X0` is `f(X2, b)`. While a walk along `f(X0, X1)` is in there, `X2` becomes `f(b, b)`, which is
visited next. When its arguments are skipped, `b` and `X1` are left. -/
theorem visits_instance_growing :
    ∃ (s t u : Subterm) (σ τ : Unifier),
      Subterm.ofSpelling [.symbol ⟨8, .function, 2⟩, .var ⟨0, 0⟩, .var ⟨0, 1⟩] = .ok s ∧
      Subterm.ofSpelling [.symbol ⟨8, .function, 2⟩, .var ⟨0, 2⟩, .symbol ⟨9, .constant, 0⟩] =
        .ok t ∧
      Subterm.ofSpelling [.symbol ⟨8, .function, 2⟩, .symbol ⟨9, .constant, 0⟩,
        .symbol ⟨9, .constant, 0⟩] = .ok u ∧
      σ = Ledger.empty.push ⟨0, 0⟩ t ∧ τ = σ.push ⟨0, 2⟩ u ∧ τ.Acyclic ∧
      Supplies (nextHead τ) (start s) (τ.instanceSpelling s) ∧
      [WalkStep.visit σ, .visit σ].head? ≠ some .skip ∧
      ∃ w, walking.run ([.visit σ, .visit σ].map .forth) (start s) = .ok w ∧
        (w.next τ).1 = some u ∧
        ∃ skipped, (w.next τ).2.skipArguments = .ok skipped ∧
          Supplies (nextHead τ) skipped [.symbol ⟨9, .constant, 0⟩, .var ⟨0, 1⟩] := by
  have acyclic (t u : Subterm) (ht : .var ⟨0, 0⟩ ∉ Unifier.read .empty t.spelling)
      (hu : .var ⟨0, 2⟩ ∉ Unifier.read (Ledger.empty.push ⟨0, 0⟩ t) u.spelling) :
      Unifier.Acyclic ((Ledger.empty.push ⟨0, 0⟩ t).push ⟨0, 2⟩ u) :=
    (Unifier.acyclic_empty.push rfl ht).push rfl hu
  refine ⟨_, _, _, _, _, rfl, rfl, rfl, rfl, rfl, acyclic _ _ ?_ ?_,
    visits_instance.1 _ _ (acyclic _ _ ?_ ?_), nofun, ?_⟩
  any_goals decide +kernel
  refine (visits_instance.2 _ [.visit _, .visit _] nofun).imp fun w h => ⟨h.1, ?_⟩
  obtain ⟨-, visits, later⟩ := h
  refine ⟨visits.next_eq _, (later _ _ (visits.next_eq _)).2.imp fun skipped h => ⟨h.1, ?_⟩⟩
  exact h.2.supplies _ (acyclic _ _ (by decide +kernel) (by decide +kernel))

end InstanceWalk

end SaturationCore
