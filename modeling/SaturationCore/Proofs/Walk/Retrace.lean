/-
# Taking walks back

A walk notes how to undo a step, and no earlier state. Yet it can be taken back exactly: after any
sequence of moves it is in the state that a walk would be in that remembers all states, and moves
answer the same. What carries this is that undoing a step right after it was made leads to where
it started, so the walk can be led back through all states that are remembered.

A walk along the instance of a subterm goes as the walk along its cells does, as long as no
variable of the subterm is bound: it never has a second frame.
-/
import Mathlib.Data.List.Infix
import Mathlib.Logic.Function.Iterate
import SaturationCore.Proofs.Spelling
import SaturationCore.Proofs.Walk.Moves

namespace SaturationCore

/-! ## Walks that answer alike -/

/-- Both are refused alike, or both answer the same, with related walks after it. -/
inductive SameMove {W W' : Type} (R : W → W' → Prop) :
    Checked (WalkReply × W) → Checked (WalkReply × W') → Prop where
  | done {reply : WalkReply} {w : W} {w' : W'} :
      R w w' → SameMove R (.ok (reply, w)) (.ok (reply, w'))
  | refused (fault : Fault) : SameMove R (.error fault) (.error fault)

namespace Remembered

variable {W : Type}

/-- All states, newest first. -/
def states (c : Remembered W) : List W :=
  c.now :: c.past

theorem suffix_back (c : Remembered W) : c.back.2.states <:+ c.states := by
  obtain ⟨now, past⟩ := c
  cases past with
  | nil => exact List.suffix_refl _
  | cons v past => exact List.suffix_cons _ _

theorem suffix_backTo (now : W) (past : List W) (steps : Nat) :
    (backTo now past steps).states <:+ now :: past := by
  induction past generalizing now with
  | nil => exact List.suffix_refl _
  | cons v past ih =>
      rw [backTo]
      split
      · exact (ih v).trans (List.suffix_cons _ _)
      · exact List.suffix_refl _

/-- A state that is still remembered can be put back. -/
theorem backTo_of_suffix {now u : W} {past older : List W} (kept : u :: older <:+ now :: past) :
    backTo now past older.length = ⟨u, older⟩ := by
  induction past generalizing now with
  | nil =>
      rw [List.suffix_cons_iff, List.suffix_nil] at kept
      rcases kept with same | none
      · cases same
        rfl
      · cases none
  | cons v past ih =>
      rw [backTo]
      rcases List.suffix_cons_iff.1 kept with same | kept
      · cases same
        exact if_neg (Nat.not_succ_le_self _)
      · rw [if_pos (Nat.le_of_succ_le_succ kept.length_le), ih kept]

end Remembered

namespace Walking

variable {W W' β : Type} {k : Walking W} {k' : Walking W'} {R : W → W' → Prop}
  {moves : List WalkMove} {w v : W} {w' : W'} {past : List W}

/-- Related walks that stay related answer alike. -/
theorem transcript_eq {see : W → β} {see' : W' → β}
    (step : ∀ m ∈ moves, ∀ w w', R w w' → SameMove R (k.perform w m) (k'.perform w' m))
    (seen : ∀ w w', R w w' → see w = see' w') (related : R w w') :
    k.transcript see moves w = k'.transcript see' moves w' := by
  induction moves generalizing w w' with
  | nil => rfl
  | cons m rest ih =>
      rw [List.forall_mem_cons] at step
      have first := step.1 w w' related
      rw [transcript, transcript]
      generalize k.perform w m = answer, k'.perform w' m = answer' at first
      cases first with
      | refused fault => rfl
      | @done reply v v' after =>
          have later := ih step.2 after
          simp only [bind, Except.bind, later, seen v v' after]

/-! ## Walks that remember how to go back -/

/-- Taking back a number of steps is taking back one step that many times. -/
theorem iterate_of_takeBack {back : W → Bool × W} {takeBack : W → Nat → W}
    (zero : ∀ w, takeBack w 0 = w)
    (succ : ∀ w steps, takeBack w (steps + 1) = takeBack (back w).2 steps) (w : W) (steps : Nat) :
    takeBack w steps = (fun v => (back v).2)^[steps] w := by
  induction steps generalizing w with
  | zero => exact zero w
  | succ steps ih => rw [succ, ih, Function.iterate_succ_apply]

/-- A step led from the first walk to the second, and can be undone. -/
structure Stepped (k : Walking W) (live : W → Prop) (w v : W) : Prop where
  back : k.backtrack v = (true, w)
  steps : (k.mark v).steps = (k.mark w).steps + 1
  alive : live v

/-- Every step can be undone right after it was made, as long as the walk is live. -/
structure Retraces (k : Walking W) (live : W → Prop) : Prop where
  next : ∀ σ w, live w → k.next σ w = (none, w) ∨
    ∃ s v, k.next σ w = (some s, v) ∧ k.Stepped live w v
  skipArguments : ∀ w v, live w → k.skipArguments w = .ok v → k.Stepped live w v
  backtrack_origin : ∀ w, (k.mark w).steps = 0 → k.backtrack w = (false, w)
  backtrackTo_eq : ∀ w m, k.backtrackTo w m =
    (fun v => (k.backtrack v).2)^[(k.mark w).steps - m.steps] w

/-- Going back leads through these states. -/
inductive Recalls (k : Walking W) (live : W → Prop) : W → List W → Prop where
  | first {w : W} : live w → (k.mark w).steps = 0 → Recalls k live w []
  | later {w v : W} {past : List W} : live w → (k.mark w).steps = past.length + 1 →
      k.backtrack w = (true, v) → Recalls k live v past → Recalls k live w (v :: past)

variable {live : W → Prop}

theorem Recalls.alive (recalls : k.Recalls live w past) : live w := by
  cases recalls with
  | first alive => exact alive
  | later alive => exact alive

theorem Recalls.mark_eq (recalls : k.Recalls live w past) : k.mark w = ⟨past.length⟩ := by
  cases recalls with
  | first _ steps => exact congrArg WalkMark.mk steps
  | later _ steps => exact congrArg WalkMark.mk steps

/-- One more step leads further away. -/
theorem Recalls.step (recalls : k.Recalls live w past) (stepped : k.Stepped live w v) :
    k.Recalls live v (w :: past) := by
  refine .later stepped.alive ?_ stepped.back recalls
  rw [stepped.steps, recalls.mark_eq]

theorem Recalls.backtrack (recalls : k.Recalls live w past) (retraces : k.Retraces live) :
    k.backtrack w = ((Remembered.back ⟨w, past⟩).1, (Remembered.back ⟨w, past⟩).2.now) ∧
      k.Recalls live (Remembered.back ⟨w, past⟩).2.now (Remembered.back ⟨w, past⟩).2.past := by
  cases recalls with
  | first alive steps => exact ⟨retraces.backtrack_origin w steps, .first alive steps⟩
  | later _ _ back earlier => exact ⟨back, earlier⟩

theorem Recalls.backtrackTo (recalls : k.Recalls live w past) (retraces : k.Retraces live)
    (m : WalkMark) :
    k.backtrackTo w m = (Remembered.backTo w past m.steps).now ∧
      k.Recalls live (Remembered.backTo w past m.steps).now
        (Remembered.backTo w past m.steps).past := by
  induction recalls with
  | @first w alive steps =>
      rw [retraces.backtrackTo_eq, steps, Nat.zero_sub]
      exact ⟨rfl, .first alive steps⟩
  | @later w v past alive steps back earlier ih =>
      rw [Remembered.backTo, retraces.backtrackTo_eq, steps]
      by_cases before : m.steps ≤ past.length
      · rw [if_pos before, Nat.succ_sub before, Function.iterate_succ_apply, back]
        rwa [retraces.backtrackTo_eq, earlier.mark_eq] at ih
      · rw [if_neg before, Nat.sub_eq_zero_of_le (Nat.not_le.1 before)]
        exact ⟨rfl, .later alive steps back earlier⟩

/-- Every move leads to the same state as putting back states that are remembered. -/
theorem Recalls.perform (recalls : k.Recalls live w past) (retraces : k.Retraces live)
    (m : WalkMove) :
    SameMove (fun w c => w = c.now ∧ k.Recalls live c.now c.past) (k.perform w m)
      (k.remembering.perform ⟨w, past⟩ m) := by
  cases m with
  | forth step =>
      cases step with
      | visit σ =>
          rcases retraces.next σ w recalls.alive with none | ⟨s, v, some, stepped⟩
          · rw [Walking.perform, Walking.perform, remembering]
            simp only [none]
            exact .done ⟨rfl, recalls⟩
          · rw [Walking.perform, Walking.perform, remembering]
            simp only [some]
            exact .done ⟨rfl, recalls.step stepped⟩
      | skip =>
          have remembered : k.remembering.skipArguments ⟨w, past⟩ =
              (k.skipArguments w >>= fun v => .ok ⟨v, w :: past⟩) := rfl
          rw [Walking.perform, Walking.perform, remembered]
          cases skipped : k.skipArguments w with
          | error fault => exact .refused fault
          | ok v =>
              have stepped := retraces.skipArguments w v recalls.alive skipped
              exact .done ⟨rfl, recalls.step stepped⟩
  | back =>
      obtain ⟨same, earlier⟩ := recalls.backtrack retraces
      rw [Walking.perform, same]
      exact .done ⟨rfl, earlier⟩
  | backTo m =>
      obtain ⟨same, earlier⟩ := recalls.backtrackTo retraces m
      exact .done ⟨same, earlier⟩

/-- A move adds a state or leaves out some of the newest ones. -/
theorem Retraces.suffix_of_perform (retraces : k.Retraces live) {c c' : Remembered W}
    (alive : live c.now) {m : WalkMove} {reply : WalkReply}
    (moved : k.remembering.perform c m = .ok (reply, c')) :
    c.states <:+ c'.states ∨ c'.states <:+ c.states := by
  cases m with
  | forth step =>
      cases step with
      | visit σ =>
          rw [Walking.perform, remembering] at moved
          rcases retraces.next σ c.now alive with none | ⟨s, v, some, -⟩
          · simp only [none] at moved
            cases moved
            exact .inl (List.suffix_refl _)
          · simp only [some] at moved
            cases moved
            exact .inl (List.suffix_cons _ _)
      | skip =>
          simp only [Walking.perform, remembering, bind_eq_ok_iff] at moved
          obtain ⟨_, ⟨v, -, ⟨⟩⟩, ⟨⟩⟩ := moved
          exact .inl (List.suffix_cons _ _)
  | back =>
      cases moved
      exact .inr c.suffix_back
  | backTo m =>
      cases moved
      exact .inr (Remembered.suffix_backTo _ _ _)

/-- States that were never left stay remembered. -/
theorem Recalls.run (recalls : k.Recalls live w past) (retraces : k.Retraces live) {u : W}
    {older : List W} (kept : u :: older <:+ w :: past) {reached : W}
    (ran : k.run moves w = .ok reached)
    (never : ∀ mid x, mid <+: moves → k.run mid w = .ok x → older.length ≤ (k.mark x).steps) :
    ∃ newer, k.Recalls live reached newer ∧ u :: older <:+ reached :: newer := by
  induction moves generalizing w past with
  | nil =>
      cases ran
      exact ⟨past, recalls, kept⟩
  | cons m rest ih =>
      obtain ⟨⟨reply, v⟩, moved, ran⟩ := bind_eq_ok_iff.1 ran
      have same := recalls.perform retraces m
      rw [moved] at same
      generalize remembered : k.remembering.perform ⟨w, past⟩ m = answer at same
      obtain @⟨_, _, c, rfl, recalls'⟩ := same
      have steps : older.length ≤ (k.mark c.now).steps := by
        refine never [m] c.now (List.prefix_append [m] rest) ?_
        rw [Walking.run, moved]
        rfl
      rw [recalls'.mark_eq] at steps
      -- A move that leaves states out does not reach down to `u`, since the mark stays above it.
      have kept' : u :: older <:+ c.states := by
        rcases retraces.suffix_of_perform recalls.alive remembered with longer | shorter
        · exact kept.trans longer
        · exact List.suffix_of_suffix_length_le kept shorter (Nat.succ_le_succ steps)
      refine ih recalls' kept' ran fun mid x front ran' => ?_
      refine never (m :: mid) x (List.cons_prefix_cons.2 ⟨rfl, front⟩) ?_
      rw [Walking.run, moved]
      exact ran'

/-- Taking back goes exactly to earlier states. Any sequence of moves answers and leads to the
same states as for a walk that remembers earlier states and puts them back. A walk that is taken
back to the mark of a moment is in the state of that moment, if it has not been taken back further
since. -/
structure UndoesExactly (k : Walking W) (start : W) : Prop where
  remembers : ∀ moves : List WalkMove, k.transcript id moves start =
    k.remembering.transcript Remembered.now moves ⟨start, []⟩
  returns : ∀ (before after : List WalkMove) (u w : W), k.run before start = .ok u →
    k.run after u = .ok w →
    (∀ mid x, mid <+: after → k.run mid u = .ok x → (k.mark u).steps ≤ (k.mark x).steps) →
    k.backtrackTo w (k.mark u) = u

theorem Retraces.undoesExactly (retraces : k.Retraces live) {start : W} (alive : live start)
    (origin : (k.mark start).steps = 0) : k.UndoesExactly start where
  remembers moves := by
    let R (w : W) (c : Remembered W) : Prop := w = c.now ∧ k.Recalls live c.now c.past
    have seen (w : W) (c : Remembered W) (related : R w c) : id w = c.now := related.1
    refine transcript_eq ?_ seen ⟨rfl, .first alive origin⟩
    rintro m - _ c ⟨rfl, recalls⟩
    exact recalls.perform retraces m
  returns before after u w ran ran' never := by
    obtain ⟨older, recalls, -⟩ := Recalls.run (.first alive origin) retraces (List.suffix_refl _)
      ran fun _ _ _ _ => Nat.zero_le _
    rw [recalls.mark_eq] at never ⊢
    obtain ⟨newer, recalls', kept⟩ := recalls.run retraces (List.suffix_refl _) ran' never
    rw [(recalls'.backtrackTo retraces _).1, Remembered.backTo_of_suffix kept]

end Walking

/-! ## Both walks -/

namespace FlatWalk

theorem next_cases (w : FlatWalk) : w.next = (none, w) ∨
    ∃ s, w.next = (some s, { w with pos := w.pos + 1, trail := w.pos :: w.trail }) := by
  rw [next]
  cases w.peek with
  | none => exact .inl rfl
  | some s => exact .inr ⟨s, rfl⟩

theorem retraces : walking.Retraces fun w => w.whole.isSome = true where
  next _ w alive := by
    rcases w.next_cases with none | ⟨s, some⟩
    · exact .inl none
    · exact .inr ⟨s, _, some, rfl, rfl, alive⟩
  skipArguments w v alive skipped := by
    obtain ⟨whole, pos, stop, trail⟩ := w
    obtain ⟨t, rfl⟩ := Option.isSome_iff_exists.1 alive
    obtain ⟨-, -, ⟨⟩⟩ := bind_eq_ok_iff.1 skipped
    exact ⟨rfl, rfl, rfl⟩
  backtrack_origin w none := by
    obtain ⟨whole, pos, stop, trail⟩ := w
    cases (List.length_eq_zero_iff.1 none : trail = [])
    rfl
  backtrackTo_eq w m := Walking.iterate_of_takeBack (fun _ => rfl) (fun _ _ => rfl) w _

end FlatWalk

namespace InstanceWalk

/-- A frame stays open when something was visited. -/
theorem ne_nil_of_next {σ : Unifier} {frames reached : List Frame} {s : Subterm}
    {changes : List FrameChange} (visited : Frames.next? σ frames = some (s, reached, changes)) :
    reached ≠ [] := by
  induction frames generalizing reached s changes with
  | nil => cases visited
  | cons f outer ih =>
      rw [Frames.next?] at visited
      split at visited
      · obtain ⟨⟨_, _, _⟩, inner, ⟨⟩⟩ := Option.bind_eq_some_iff.1 visited
        exact ih inner
      · split at visited <;> cases visited <;> exact List.cons_ne_nil _ _

theorem retraces : walking.Retraces fun w => w.frames ≠ [] where
  next σ w _ := by
    show w.next σ = _ ∨ ∃ s v, w.next σ = _ ∧ _
    rw [next]
    cases visited : Frames.next? σ w.frames with
    | none => exact .inl rfl
    | some result =>
        obtain ⟨s, frames, changes⟩ := result
        refine .inr ⟨s, _, rfl, ?_, rfl, ne_nil_of_next visited⟩
        show (true, InstanceWalk.mk _ _) = (true, w)
        rw [Frames.undo_next visited]
  skipArguments w v alive skipped := by
    obtain ⟨frames, steps⟩ := w
    cases frames with
    | nil => exact absurd rfl alive
    | cons f outer =>
        obtain ⟨⟨reached, changes⟩, moved, ⟨⟩⟩ := bind_eq_ok_iff.1 skipped
        obtain ⟨-, -, ⟨⟩⟩ := bind_eq_ok_iff.1 moved
        exact ⟨rfl, rfl, List.cons_ne_nil _ _⟩
  backtrack_origin w none := by
    obtain ⟨frames, steps⟩ := w
    cases (List.length_eq_zero_iff.1 none : steps = [])
    rfl
  backtrackTo_eq w m := Walking.iterate_of_takeBack (fun _ => rfl) (fun _ _ => rfl) w _

end InstanceWalk

/-! ## Walks abreast -/

/-- A head between two positions inside a subterm belongs to it. -/
theorem Subterm.head_mem_spelling_of_inside {s here : Subterm} (same : here.whole = s.whole)
    (first : s.pos ≤ here.pos) (last : here.pos < s.stop) : here.head ∈ s.spelling := by
  obtain ⟨whole, pos, inside⟩ := here
  subst same
  rw [spelling_eq_between, ← s.whole.between_append first (Nat.le_of_lt last),
    ← s.whole.between_append (Nat.le_succ pos) last, s.whole.between_succ inside]
  exact List.mem_append_right _ (List.mem_append_left _ List.mem_cons_self)

variable {s : Subterm} {f : FlatWalk} {w : InstanceWalk}

/-- No variable of the subterm is bound. -/
def Unifier.LeavesAlone (σ : Unifier) (s : Subterm) : Prop :=
  ∀ v, s.mentions v = true → σ.get? v = none

/-- Both walks are at one cell of the subterm and started their steps from the same cells. The
walk along the instance has one frame. -/
inductive Abreast (s : Subterm) : FlatWalk → InstanceWalk → Prop where
  | intro (pos : Nat) (trail : List Nat) : (∀ p ∈ pos :: trail, s.pos ≤ p) →
      Abreast s ⟨some s.whole, pos, s.stop, trail⟩
        ⟨[⟨s.whole, pos, s.stop⟩], trail.map fun p => [.moved p]⟩

namespace Abreast

theorem start (s : Subterm) : Abreast s (.start s) (.start s) :=
  .intro s.pos [] (List.forall_mem_singleton.2 (Nat.le_refl _))

theorem hasNext_eq (abreast : Abreast s f w) : f.hasNext = w.hasNext := by
  cases abreast
  exact (Bool.or_false _).symm

theorem next (abreast : Abreast s f w) {σ : Unifier} (alone : σ.LeavesAlone s) :
    f.next.1 = (w.next σ).1 ∧ Abreast s f.next.2 (w.next σ).2 := by
  obtain ⟨pos, trail, inside⟩ := abreast
  by_cases more : pos < s.stop
  · have within : pos < s.whole.size := Nat.lt_of_lt_of_le more s.stop_le_size
    have free : (Subterm.mk s.whole pos within).asVariable.bind σ.get? = none := by
      cases root : (Subterm.mk s.whole pos within).asVariable with
      | none => rfl
      | some v =>
          have shown : (Subterm.mk s.whole pos within).head ∈ s.spelling :=
            Subterm.head_mem_spelling_of_inside rfl (List.forall_mem_cons.1 inside).1 more
          rw [Subterm.asVariable_eq_some.1 root] at shown
          exact alone v (Subterm.mentions_iff_mem.2 shown)
    have peeked : Frame.peek ⟨s.whole, pos, s.stop⟩ = some ⟨s.whole, pos, within⟩ := by
      rw [Frame.peek, Frame.hasNext, if_pos (decide_eq_true more), Subterm.at?, dif_pos within]
    have flat : FlatWalk.next ⟨some s.whole, pos, s.stop, trail⟩ =
        (some ⟨s.whole, pos, within⟩, ⟨some s.whole, pos + 1, s.stop, pos :: trail⟩) := by
      simp [FlatWalk.next, FlatWalk.peek, FlatWalk.hasNext, more, Subterm.at?, within]
    have along : InstanceWalk.next σ ⟨[⟨s.whole, pos, s.stop⟩], trail.map fun p => [.moved p]⟩ =
        (some ⟨s.whole, pos, within⟩,
          ⟨[⟨s.whole, pos + 1, s.stop⟩], (pos :: trail).map fun p => [.moved p]⟩) := by
      simp only [InstanceWalk.next, Frames.next?, peeked, free, List.map_cons]
    rw [flat, along]
    refine ⟨rfl, .intro (pos + 1) (pos :: trail) (List.forall_mem_cons.2 ⟨?_, inside⟩)⟩
    exact Nat.le_succ_of_le (List.forall_mem_cons.1 inside).1
  · have flat : FlatWalk.next ⟨some s.whole, pos, s.stop, trail⟩ =
        (none, ⟨some s.whole, pos, s.stop, trail⟩) := by
      simp [FlatWalk.next, FlatWalk.peek, FlatWalk.hasNext, more]
    have along : InstanceWalk.next σ ⟨[⟨s.whole, pos, s.stop⟩], trail.map fun p => [.moved p]⟩ =
        (none, ⟨[⟨s.whole, pos, s.stop⟩], trail.map fun p => [.moved p]⟩) := by
      simp [InstanceWalk.next, Frames.next?, Frame.peek, Frame.hasNext, more]
    rw [flat, along]
    exact ⟨rfl, .intro pos trail inside⟩

theorem skipArguments (abreast : Abreast s f w) :
    (∃ f' w', f.skipArguments = .ok f' ∧ w.skipArguments = .ok w' ∧ Abreast s f' w') ∨
      ∃ fault, f.skipArguments = .error fault ∧ w.skipArguments = .error fault := by
  obtain ⟨pos, trail, inside⟩ := abreast
  by_cases ahead : 0 < pos
  · have moved : s.pos ≤ s.whole.after (pos - 1) := by
      have := s.whole.lt_after (pos - 1)
      have := (List.forall_mem_cons.1 inside).1
      omega
    refine .inl ⟨_, _, ?_, ?_, .intro (s.whole.after (pos - 1)) (pos :: trail)
      (List.forall_mem_cons.2 ⟨moved, inside⟩)⟩
    · simp only [FlatWalk.skipArguments, decide_eq_true ahead]
      rfl
    · simp only [InstanceWalk.skipArguments, Frames.skipArguments, decide_eq_true ahead]
      rfl
  · refine .inr ⟨.brokenRule, ?_, ?_⟩
    · simp only [FlatWalk.skipArguments, decide_eq_false ahead]
      rfl
    · simp only [InstanceWalk.skipArguments, Frames.skipArguments, decide_eq_false ahead]
      rfl

theorem backtrack (abreast : Abreast s f w) :
    f.backtrack.1 = w.backtrack.1 ∧ Abreast s f.backtrack.2 w.backtrack.2 := by
  obtain ⟨pos, trail, inside⟩ := abreast
  cases trail with
  | nil => exact ⟨rfl, .intro pos [] inside⟩
  | cons p trail => exact ⟨rfl, .intro p trail (List.forall_mem_cons.1 inside).2⟩

theorem takeBack (abreast : Abreast s f w) (steps : Nat) :
    Abreast s (f.takeBack steps) (w.takeBack steps) := by
  induction steps generalizing f w with
  | zero => exact abreast
  | succ steps ih => exact ih abreast.backtrack.2

theorem backtrackTo (abreast : Abreast s f w) (m : WalkMark) :
    Abreast s (f.backtrackTo m) (w.backtrackTo m) := by
  have marks : f.trail.length = w.steps.length := by
    cases abreast
    exact (List.length_map _).symm
  rw [FlatWalk.backtrackTo, InstanceWalk.backtrackTo, marks]
  exact abreast.takeBack _

/-- Every move answers the same and leaves both walks abreast, if no variable of the subterm is
bound. -/
theorem perform (abreast : Abreast s f w) {m : WalkMove}
    (alone : ∀ σ, m = .forth (.visit σ) → σ.LeavesAlone s) :
    SameMove (Abreast s) (FlatWalk.walking.perform f m) (InstanceWalk.walking.perform w m) := by
  cases m with
  | forth step =>
      cases step with
      | visit σ =>
          obtain ⟨same, after⟩ := abreast.next (alone σ rfl)
          show SameMove _ (.ok (.visited f.next.1, f.next.2)) _
          rw [same]
          exact .done after
      | skip =>
          show SameMove _ (f.skipArguments >>= fun v => .ok (.done, v))
            (w.skipArguments >>= fun v => .ok (.done, v))
          rcases abreast.skipArguments with ⟨f', w', skipped, skipped', after⟩ | ⟨fault, no, no'⟩
          · rw [skipped, skipped']
            exact .done after
          · rw [no, no']
            exact .refused fault
  | back =>
      obtain ⟨same, after⟩ := abreast.backtrack
      show SameMove _ (.ok (.undone f.backtrack.1, f.backtrack.2)) _
      rw [same]
      exact .done after
  | backTo m => exact .done (abreast.backtrackTo m)

end Abreast

/-! ## What both walks keep -/

/-- Taking back goes exactly to earlier states, for a walk along the cells of a subterm and for
one along its instance, through whatever ledgers it is read. If no variable of the subterm is bound
in them, both answer every sequence of moves alike. -/
theorem Walking.undo_exactly :
    (∀ s : Subterm, FlatWalk.walking.UndoesExactly (.start s)) ∧
    (∀ s : Subterm, InstanceWalk.walking.UndoesExactly (.start s)) ∧
    ∀ (s : Subterm) (moves : List WalkMove),
      (∀ σ, .forth (.visit σ) ∈ moves → σ.LeavesAlone s) →
      FlatWalk.walking.transcript FlatWalk.hasNext moves (.start s) =
        InstanceWalk.walking.transcript InstanceWalk.hasNext moves (.start s) := by
  refine ⟨fun s => FlatWalk.retraces.undoesExactly rfl rfl,
    fun s => InstanceWalk.retraces.undoesExactly (List.cons_ne_nil _ _) rfl,
    fun s moves alone => ?_⟩
  refine transcript_eq (fun m here f w abreast => ?_) (fun _ _ abreast => abreast.hasNext_eq)
    (Abreast.start s)
  refine abreast.perform fun σ visits => ?_
  subst visits
  exact alone σ here

/-- `X0` is `g(X1)` and `X1` is `g(b)`. Four steps along `f(X0, b)` lead to the first `b`, two
instances deep, and one more leaves both instances. Going back opens them again. When only `X2` is
bound, both walks answer alike. -/
theorem Walking.undo_exactly_resurfacing :
    ∃ (s t r : Subterm) (σ τ : Unifier) (u w : InstanceWalk) (moves : List WalkMove),
      Subterm.ofSpelling [.symbol ⟨8, .function, 2⟩, .var ⟨0, 0⟩, .symbol ⟨9, .constant, 0⟩] =
        .ok s ∧
      Subterm.ofSpelling [.symbol ⟨10, .function, 1⟩, .var ⟨0, 1⟩] = .ok t ∧
      Subterm.ofSpelling [.symbol ⟨10, .function, 1⟩, .symbol ⟨9, .constant, 0⟩] = .ok r ∧
      σ = (Ledger.empty.push ⟨0, 0⟩ t).push ⟨0, 1⟩ r ∧ τ = Ledger.empty.push ⟨0, 2⟩ r ∧
      moves = [.forth (.visit τ), .forth (.visit τ), .forth .skip, .back, .forth (.visit τ)] ∧
      (InstanceWalk.walking.run (List.replicate 4 (.forth (.visit σ))) (.start s) = .ok u ∧
        InstanceWalk.walking.run [.forth (.visit σ)] u = .ok w ∧
        (∀ mid x, mid <+: [.forth (.visit σ)] → InstanceWalk.walking.run mid u = .ok x →
          u.mark.steps ≤ x.mark.steps) ∧
        w.backtrackTo u.mark = u) ∧
      u.depth = 2 ∧ w.depth = 0 ∧
      (∀ υ, .forth (.visit υ) ∈ moves → υ.LeavesAlone s) ∧
      FlatWalk.walking.transcript FlatWalk.hasNext moves (.start s) =
        InstanceWalk.walking.transcript InstanceWalk.hasNext moves (.start s) := by
  have returns (s : Subterm) (σ : Unifier) (before : List WalkMove) (u w : InstanceWalk)
      (ran : InstanceWalk.walking.run before (.start s) = .ok u)
      (ran' : InstanceWalk.walking.run [.forth (.visit σ)] u = .ok w)
      (more : u.mark.steps ≤ w.mark.steps) :
      InstanceWalk.walking.run before (.start s) = .ok u ∧
        InstanceWalk.walking.run [.forth (.visit σ)] u = .ok w ∧
        (∀ mid x, mid <+: [.forth (.visit σ)] → InstanceWalk.walking.run mid u = .ok x →
          u.mark.steps ≤ x.mark.steps) ∧
        w.backtrackTo u.mark = u := by
    have never : ∀ mid x, mid <+: [.forth (.visit σ)] → InstanceWalk.walking.run mid u = .ok x →
        u.mark.steps ≤ x.mark.steps := by
      intro mid x short here
      rcases List.prefix_cons_iff.1 short with rfl | ⟨_, rfl, tail⟩
      · cases here
        exact Nat.le_refl _
      · rw [List.prefix_nil.1 tail] at here
        cases ran'.symm.trans here
        exact more
    exact ⟨ran, ran', never, (undo_exactly.2.1 s).returns _ _ u w ran ran' never⟩
  have alone (s r : Subterm) (unshown : s.mentions ⟨0, 2⟩ = false) (moves : List WalkMove)
      (same : moves = [.forth (.visit (Ledger.empty.push ⟨0, 2⟩ r)),
        .forth (.visit (Ledger.empty.push ⟨0, 2⟩ r)), .forth .skip, .back,
        .forth (.visit (Ledger.empty.push ⟨0, 2⟩ r))]) :
      ∀ υ, .forth (.visit υ) ∈ moves → υ.LeavesAlone s := by
    intro υ visits v shown
    obtain rfl : υ = Ledger.empty.push ⟨0, 2⟩ r := by simpa [same] using visits
    rw [Ledger.get?_push, if_neg]
    · rfl
    · rintro rfl
      rw [unshown] at shown
      cases shown
  refine ⟨_, _, _, _, _, _, _, _, rfl, rfl, rfl, rfl, rfl, rfl, returns _ _ _ _ _ rfl rfl ?_, rfl,
    rfl, alone _ _ ?_ _ rfl, undo_exactly.2.2 _ _ (alone _ _ ?_ _ rfl)⟩
  all_goals decide +kernel

end SaturationCore
