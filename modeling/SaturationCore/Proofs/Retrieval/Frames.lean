/-
# What is left of a walk along an instance

The open frames of a walk are stretches of flatterms, and what is left to visit are
their heads, the innermost first. Visiting the next subterm replaces it by its arguments;
skipping them leaves what comes behind it. A bound variable that is met is replaced by
its instance on the way, so what is left changes its spelling there, but under every
solution of the ledger it reads the same.
-/
import SaturationCore.Proofs.Ledger.Reading
import SaturationCore.Walk.Instance

namespace SaturationCore

namespace Frame

variable {f : Frame}

/-- The heads that are left in a frame. -/
def rest (f : Frame) : List Head :=
  f.whole.between f.pos f.stop

/-- A frame goes along some whole terms. -/
def Sound (f : Frame) : Prop :=
  ∃ n, f.whole.Stretch f.pos n f.stop

theorem sound_ofSubterm (s : Subterm) : (ofSubterm s).Sound :=
  ⟨1, s.stretch⟩

theorem sound_behindRoot (s : Subterm) : (behindRoot s).Sound := by
  obtain ⟨_, args, _⟩ := s.stretch.first
  exact ⟨_, args⟩

theorem rest_behindRoot (s : Subterm) : s.head :: (behindRoot s).rest = s.spelling := by
  rw [Subterm.spelling_eq_between, ← s.whole.between_append (Nat.le_succ s.pos) s.pos_lt_stop,
    s.whole.between_succ s.pos_lt]
  rfl

theorem sound_of_pos_eq_stop (t : Flatterm) (p : Nat) : Sound ⟨t, p, p⟩ :=
  ⟨0, .zero t p⟩

theorem rest_of_pos_eq_stop (t : Flatterm) (p : Nat) : rest ⟨t, p, p⟩ = [] :=
  t.between_self p

/-- A frame either has come to its end, or a subterm comes next: behind its head come
its arguments, and behind it more terms. -/
theorem Sound.cases (sound : f.Sound) :
    f.hasNext = false ∧ f.peek = none ∧ f.rest = [] ∨
      ∃ s, f.hasNext = true ∧ f.peek = some s ∧
        Sound { f with pos := f.pos + 1 } ∧ f.rest = s.head :: rest { f with pos := f.pos + 1 } ∧
        Sound { f with pos := f.whole.after f.pos } ∧
        f.rest = s.spelling ++ rest { f with pos := f.whole.after f.pos } := by
  obtain ⟨n, stretch⟩ := sound
  cases n with
  | zero =>
      have finished := stretch.eq_of_zero
      have none : f.hasNext = false := by simp [hasNext, finished]
      exact .inl ⟨none, by rw [peek, none]; rfl, by rw [rest, finished, Flatterm.between_self]⟩
  | succ n =>
      obtain ⟨inside, args, later⟩ := stretch.first
      have more : f.hasNext = true := decide_eq_true
        (Nat.lt_of_lt_of_le (f.whole.lt_after f.pos) later.le)
      refine .inr ⟨⟨f.whole, f.pos, inside⟩, more, ?_, ⟨_, args.append later⟩, ?_, ⟨_, later⟩, ?_⟩
      · rw [peek, more, if_pos rfl, Subterm.at?, dif_pos inside]
      · have behind := (args.append later).le
        rw [rest, ← f.whole.between_append (Nat.le_succ f.pos) behind, f.whole.between_succ inside]
        rfl
      · exact (f.whole.between_append (Nat.le_of_lt (f.whole.lt_after f.pos)) later.le).symm

end Frame

namespace Frames

variable {σ : Unifier} {f : Frame} {frames outer reached skipped : List Frame} {s : Subterm}
  {rest : List Head}

/-- The heads that are left in all frames. -/
def remaining (frames : List Frame) : List Head :=
  frames.flatMap Frame.rest

/-- Every frame goes along some whole terms. -/
def Sound (frames : List Frame) : Prop :=
  ∀ f ∈ frames, f.Sound

theorem remaining_cons : remaining (f :: outer) = f.rest ++ remaining outer := rfl

theorem remaining_ofSubterm (s : Subterm) : remaining [.ofSubterm s] = s.spelling :=
  List.append_nil _

theorem Sound.cons (first : f.Sound) (others : Sound outer) : Sound (f :: outer) :=
  List.forall_mem_cons.2 ⟨first, others⟩

theorem sound_ofSubterm (s : Subterm) : Sound [.ofSubterm s] :=
  .cons (Frame.sound_ofSubterm s) fun _ h => absurd h List.not_mem_nil

theorem peek_ofSubterm (σ : Unifier) (s : Subterm) : peek σ [.ofSubterm s] = some (σ.deref s) := by
  have more : (Frame.ofSubterm s).hasNext = true := decide_eq_true s.pos_lt_stop
  have here : (Frame.ofSubterm s).peek = some s := by
    rw [Frame.peek, more, if_pos rfl, Subterm.at?]
    exact dif_pos s.pos_lt
  rw [peek, List.find?_cons_of_pos more]
  simp [here]

theorem hasNext_eq_false (sound : Sound frames) (empty : remaining frames = []) :
    hasNext frames = false := by
  rw [hasNext, List.any_eq_false]
  intro f hf more
  rcases (sound f hf).cases with ⟨none, -, -⟩ | ⟨s, -, -, -, left, -⟩
  · rw [none] at more
    cases more
  · have nothing : f.rest = [] := List.flatMap_eq_nil_iff.1 empty f hf
    rw [nothing] at left
    cases left

/-- The subterm `s` comes next, followed by `rest`. Visiting it and then skipping its
arguments leads to these frames. -/
structure Visits (σ : Unifier) (frames : List Frame) (s : Subterm) (rest : List Head)
    (reached skipped : List Frame) : Prop where
  peek_eq : peek σ frames = some (σ.deref s)
  remaining_eq : remaining frames = s.spelling ++ rest
  next_eq : ∃ visited changes, next? σ frames = some (visited, reached, changes)
  sound_reached : Sound reached
  remaining_reached : (σ.deref s).head :: remaining reached = (σ.deref s).spelling ++ rest
  skip_eq : ∃ changes, skipArguments reached = .ok (skipped, changes)
  sound_skipped : Sound skipped
  remaining_skipped : remaining skipped = rest

/-- Frames that have come to their end are left on the way. -/
theorem Visits.leave (visits : Visits σ outer s rest reached skipped) (ended : f.hasNext = false)
    (none : f.peek = none) (nothing : f.rest = []) :
    Visits σ (f :: outer) s rest reached skipped where
  peek_eq := by
    rw [← visits.peek_eq, peek, peek,
      List.find?_cons_of_neg (by rw [ended]; exact Bool.false_ne_true)]
  remaining_eq := by rw [remaining_cons, nothing, visits.remaining_eq, List.nil_append]
  next_eq := by
    obtain ⟨visited, changes, next⟩ := visits.next_eq
    refine ⟨visited, changes ++ [.left f], ?_⟩
    rw [next?, none, next]
    rfl
  sound_reached := visits.sound_reached
  remaining_reached := visits.remaining_reached
  skip_eq := visits.skip_eq
  sound_skipped := visits.sound_skipped
  remaining_skipped := visits.remaining_skipped

/-- As long as something is left, a subterm comes next. -/
theorem exists_visits (sound : Sound frames) (left : remaining frames ≠ []) :
    ∃ s rest reached skipped, Visits σ frames s rest reached skipped := by
  induction frames with
  | nil => exact absurd rfl left
  | cons f outer ih =>
      obtain ⟨first, others⟩ := List.forall_mem_cons.1 sound
      rcases first.cases with ⟨ended, none, nothing⟩ |
        ⟨s, more, here, soundArgs, restArgs, soundLater, restLater⟩
      · rw [remaining_cons, nothing, List.nil_append] at left
        obtain ⟨s, rest, reached, skipped, visits⟩ := ih others left
        exact ⟨s, rest, reached, skipped, visits.leave ended none nothing⟩
      · have peeked : peek σ (f :: outer) = some (σ.deref s) := by
          rw [peek, List.find?_cons_of_pos more]
          simp [here]
        have spelled : remaining (f :: outer) =
            s.spelling ++
              (Frame.rest { f with pos := f.whole.after f.pos } ++ remaining outer) := by
          rw [remaining_cons, restLater, List.append_assoc]
        have moved : Sound ({ f with pos := f.pos + 1 } :: outer) := .cons soundArgs others
        cases bound : s.asVariable.bind σ.get? with
        | none =>
            have same : σ.deref s = s := Unifier.deref_of_free bound
            refine ⟨s, _, { f with pos := f.pos + 1 } :: outer,
              { f with pos := f.whole.after f.pos } :: outer, peeked, spelled, ?_, moved, ?_, ?_,
              .cons soundLater others, rfl⟩
            · exact ⟨_, _, by rw [next?, here]; dsimp only; rw [bound]⟩
            · rw [same, remaining_cons, ← List.cons_append, ← restArgs, restLater,
                List.append_assoc]
            · exact ⟨_, rfl⟩
        | some t =>
            obtain ⟨v, root, -⟩ := Option.bind_eq_some_iff.1 bound
            have leaf := Subterm.spelling_of_head_eq_var (Subterm.asVariable_eq_some.1 root)
            have same : Frame.rest { f with pos := f.pos + 1 } =
                Frame.rest { f with pos := f.whole.after f.pos } := by
              rw [restLater, leaf, Subterm.asVariable_eq_some.1 root] at restArgs
              exact (List.cons.inj restArgs).2.symm
            refine ⟨s, _, .behindRoot (σ.deref s) :: { f with pos := f.pos + 1 } :: outer,
              ⟨(σ.deref s).whole, (σ.deref s).stop, (σ.deref s).stop⟩ ::
                { f with pos := f.pos + 1 } :: outer, peeked, spelled, ?_, ?_, ?_, ?_, ?_, ?_⟩
            · exact ⟨_, _, by rw [next?, here]; dsimp only; rw [bound]⟩
            · exact .cons (Frame.sound_behindRoot _) moved
            · rw [remaining_cons, remaining_cons, same, ← List.cons_append, Frame.rest_behindRoot]
            · exact ⟨_, rfl⟩
            · exact .cons (Frame.sound_of_pos_eq_stop _ _) moved
            · rw [remaining_cons, remaining_cons, same, Frame.rest_of_pos_eq_stop, List.nil_append]

end Frames

end SaturationCore
