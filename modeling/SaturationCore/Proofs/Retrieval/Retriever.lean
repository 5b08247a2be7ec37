/-
# Retrieval by undoing finds the same

A retriever undoes what it did where a search that holds states goes back to one of them. What
carries this is that the walk of a retriever recalls, step by step, all states that a level still
needs: a level's walk is one of the states that going back leads through, and its mark says which.
In the same way the heads collected at a level are the front of the buffer, and its mark says how
much of it. Each level needs only what lies before the level in front of it.

So a retriever answers every request as a search does that holds states, with the same ledger.
-/
import SaturationCore.DiscriminationTree.Retriever
import SaturationCore.Proofs.Retrieval.Lockstep
import SaturationCore.Proofs.Retrieval.Session
import SaturationCore.Proofs.Walk.Retrace

namespace SaturationCore

open Checked (Both)

variable {α : Type} {σ : Unifier} {h : Head}

/-! ## Passing a node -/

/-- What comes next can be visited. -/
theorem Frames.exists_next?_of_peek {frames : List Frame} {q : Subterm}
    (peeked : Frames.peek σ frames = some q) :
    ∃ s reached changes, Frames.next? σ frames = some (s, reached, changes) := by
  induction frames with
  | nil => cases peeked
  | cons f outer ih =>
      rw [Frames.next?]
      by_cases more : f.hasNext = true
      · rw [Frames.peek, List.find?_cons_of_pos more] at peeked
        obtain ⟨_, ⟨⟩, peeked⟩ := Option.bind_eq_some_iff.1 peeked
        obtain ⟨here, found, -⟩ := Option.bind_eq_some_iff.1 peeked
        rw [found]
        dsimp only
        split
        · exact ⟨_, _, _, rfl⟩
        · exact ⟨_, _, _, rfl⟩
      · rw [Frames.peek, List.find?_cons_of_neg more] at peeked
        obtain ⟨s, reached, changes, visited⟩ := ih peeked
        have ended : f.peek = none := if_neg more
        rw [ended, visited]
        exact ⟨_, _, _, rfl⟩

namespace InstanceWalk

/-- Going back leads through these states, and the walk has frames. -/
abbrev Recalls (w : InstanceWalk) (past : List InstanceWalk) : Prop :=
  walking.Recalls (fun w => w.frames ≠ []) w past

variable {w v : InstanceWalk} {past : List InstanceWalk}

theorem next_of_visited {s : Subterm} {reached : List Frame} {changes : List FrameChange}
    (visited : Frames.next? σ w.frames = some (s, reached, changes)) :
    w.next σ = (some s, ⟨reached, changes :: w.steps⟩) := by
  rw [InstanceWalk.next, visited]

theorem Recalls.next (recalls : w.Recalls past) {s : Subterm}
    (visited : (w.next σ).1 = some s) : (w.next σ).2.Recalls (w :: past) := by
  rcases retraces.next σ w recalls.alive with none | ⟨_, v, some, stepped⟩
  · cases visited.symm.trans (congrArg Prod.fst none)
  · have made : w.next σ = (_, v) := some
    rw [made]
    exact recalls.step stepped

theorem Recalls.skipArguments (recalls : w.Recalls past) (skipped : w.skipArguments = .ok v) :
    v.Recalls (w :: past) :=
  recalls.step (retraces.skipArguments w v recalls.alive skipped)

theorem skipArguments_both (alive : w.frames ≠ []) :
    Both (fun v skipped => v.frames = skipped.1) w.skipArguments
      (Frames.skipArguments w.frames) := by
  rw [InstanceWalk.skipArguments, if_neg (mt List.isEmpty_iff.1 alive)]
  cases Frames.skipArguments w.frames with
  | error fault => exact .refused fault
  | ok result => exact .answered rfl

/-- A state that is recalled can be gone back to. -/
theorem Recalls.backtrackTo (recalls : w.Recalls past) {u : InstanceWalk}
    {older : List InstanceWalk} (kept : u :: older <:+ w :: past) :
    w.backtrackTo ⟨older.length⟩ = u ∧ u.Recalls older := by
  have back := Walking.Recalls.backtrackTo recalls retraces ⟨older.length⟩
  rwa [Remembered.backTo_of_suffix kept] at back

end InstanceWalk

namespace SearchMode

/-- The heads collected in the buffer are those that the descent holds, newest first. -/
inductive Reads (buffer : List Head) : SearchMode → Descent → Prop where
  | compare : Reads buffer .compare .compare
  | collect {v : Variable} {first missing : Nat} : first ≤ buffer.length →
      Reads buffer (.collect v first missing) (.collect v (buffer.drop first).reverse missing)

theorem Reads.isCompare_eq {buffer : List Head} {mode : SearchMode} {descent : Descent}
    (reads : mode.Reads buffer descent) : mode.isCompare = descent.isCompare := by
  cases reads <;> rfl

end SearchMode

namespace SearchState

variable {s t u : SearchState} {past : List InstanceWalk}

/-- The second state comes after the first one, which can be gone back to. -/
def LeadsTo (s t : SearchState) : Prop :=
  s.buffer <+: t.buffer ∧ ∀ past, s.walk.Recalls past →
    ∃ newer, t.walk.Recalls newer ∧ s.walk :: past <:+ t.walk :: newer

theorem LeadsTo.refl (s : SearchState) : s.LeadsTo s :=
  ⟨List.prefix_refl _, fun past recalls => ⟨past, recalls, List.suffix_refl _⟩⟩

theorem LeadsTo.trans (first : s.LeadsTo t) (second : t.LeadsTo u) : s.LeadsTo u := by
  refine ⟨first.1.trans second.1, fun past recalls => ?_⟩
  obtain ⟨newer, recalls, kept⟩ := first.2 past recalls
  obtain ⟨newest, recalls, kept'⟩ := second.2 newer recalls
  exact ⟨newest, recalls, kept.trans kept'⟩

/-- Passing a node comes to the same in both searches, and can be undone. -/
inductive Passes (s : SearchState) : SearchStep × SearchState → Passage → Prop where
  | descend {t : SearchState} {mode : SearchMode} {descent : Descent} :
      s.LeadsTo t → mode.Reads t.buffer descent →
      Passes s (.descend mode, t) (.descend t.walk.frames descent t.ledger)
  | skip {t : SearchState} : s.LeadsTo t → t.ledger = s.ledger → Passes s (.skip, t) .skip
  | exhausted {t : SearchState} : s.LeadsTo t → t.ledger = s.ledger →
      Passes s (.exhausted, t) .exhausted

theorem Passes.after {answer : SearchStep × SearchState} {passage : Passage} (first : s.LeadsTo t)
    (same : t.ledger = s.ledger) (passes : t.Passes answer passage) : s.Passes answer passage := by
  cases passes with
  | descend later reads => exact .descend (first.trans later) reads
  | skip later kept => exact .skip (first.trans later) (kept.trans same)
  | exhausted later kept => exact .exhausted (first.trans later) (kept.trans same)

theorem collecting_both (s : SearchState) (v : Variable) {first : Nat} (missing : Nat) (h : Head)
    (inside : first ≤ s.buffer.length) :
    Both s.Passes (s.collecting v first missing h)
      (Passage.collecting s.ledger s.walk.frames v (s.buffer.drop first).reverse missing h) := by
  have longer : s.buffer <+: s.buffer ++ [h] := List.prefix_append _ _
  have heads : (h :: (s.buffer.drop first).reverse).reverse = (s.buffer ++ [h]).drop first := by
    rw [List.reverse_cons, List.reverse_reverse, List.drop_append_of_le_length inside]
  have leads : s.LeadsTo { s with buffer := s.buffer ++ [h] } := ⟨longer, (LeadsTo.refl s).2⟩
  rw [collecting, Passage.collecting]
  dsimp only
  split
  · rw [List.reverse_eq_iff.1 heads]
    exact .answered (.descend leads (.collect (inside.trans longer.length_le)))
  · rw [heads]
    refine (Both.same _).bind ?_
    rintro t _ rfl
    cases s.ledger.unifyVariable v t with
    | none => exact .answered (.skip leads rfl)
    | some σ => exact .answered (.descend ⟨longer, (LeadsTo.refl s).2⟩ .compare)

/-- Visiting what comes next can be undone. -/
theorem leadsTo_step {q : Subterm} (peeked : s.walk.peek s.ledger = some q) : s.LeadsTo s.step := by
  obtain ⟨here, reached, changes, visited⟩ := Frames.exists_next?_of_peek peeked
  refine ⟨List.prefix_refl _, fun past recalls => ⟨s.walk :: past, ?_, List.suffix_cons _ _⟩⟩
  exact recalls.next (congrArg Prod.fst (InstanceWalk.next_of_visited visited))

theorem stepOver_both {q : Subterm} (peeked : s.walk.peek s.ledger = some q) :
    Both (fun t frames => s.LeadsTo t ∧ t.walk.frames = frames ∧ t.ledger = s.ledger) s.stepOver
      (Passage.stepOver s.ledger s.walk.frames) := by
  obtain ⟨here, reached, changes, visited⟩ := Frames.exists_next?_of_peek peeked
  have first := leadsTo_step peeked
  have moved : s.step.walk.frames = reached :=
    congrArg (·.2.frames) (InstanceWalk.next_of_visited visited)
  have skipping := InstanceWalk.skipArguments_both (w := s.step.walk)
    (moved ▸ InstanceWalk.ne_nil_of_next visited)
  rw [moved] at skipping
  rw [stepOver, Passage.stepOver, visited]
  dsimp only
  generalize skipped : s.step.walk.skipArguments = answer at skipping
  generalize Frames.skipArguments reached = answer' at skipping
  cases skipping with
  | refused fault => exact .refused fault
  | @answered v result same =>
      refine .answered ⟨first.trans ⟨List.prefix_refl _, fun past recalls => ?_⟩, same, rfl⟩
      exact ⟨_, recalls.skipArguments skipped, List.suffix_cons _ _⟩

/-- An unbound variable of the query begins to collect heads. -/
theorem beginning_both {q : Subterm} (peeked : s.walk.peek s.ledger = some q) (v : Variable)
    (h : Head) :
    Both s.Passes (s.stepOver >>= fun t => t.collecting v t.buffer.length 1 h)
      (Passage.stepOver s.ledger s.walk.frames >>= fun frames =>
        Passage.collecting s.ledger frames v [] 1 h) := by
  refine (stepOver_both peeked).bind ?_
  rintro t _ ⟨leads, rfl, same⟩
  have both := t.collecting_both v 1 h (Nat.le_refl _)
  rw [List.drop_length, List.reverse_nil, same] at both
  exact both.imp fun _ _ passes => passes.after leads same

/-- The symbol of a node is compared with the next symbol of the query. -/
theorem matching_both {q : Subterm} (peeked : s.walk.peek s.ledger = some q) (h other : Head) :
    Both s.Passes
      (if h = other then pure (.descend .compare, s.step)
        else pure (if h.order other = .gt then .exhausted else .skip, s))
      (if h = other then
          match Frames.next? s.ledger s.walk.frames with
          | none => pure .exhausted
          | some (_, frames, _) => pure (.descend frames .compare s.ledger)
        else pure (if h.order other = .gt then .exhausted else .skip)) := by
  obtain ⟨here, reached, changes, visited⟩ := Frames.exists_next?_of_peek peeked
  have moved : s.step.walk.frames = reached :=
    congrArg (·.2.frames) (InstanceWalk.next_of_visited visited)
  rw [visited, ← moved]
  split
  · exact .answered (.descend (leadsTo_step peeked) .compare)
  · split
    · exact .answered (.exhausted (.refl s) rfl)
    · exact .answered (.skip (.refl s) rfl)

theorem comparing_both (s : SearchState) (h : Head) :
    Both s.Passes (s.comparing h) (Passage.comparing s.ledger s.walk.frames h) := by
  have seen : Frames.peek s.ledger s.walk.frames = s.walk.peek s.ledger := rfl
  rw [comparing, Passage.comparing, seen]
  cases peeked : s.walk.peek s.ledger with
  | none => exact .answered (.exhausted (.refl s) rfl)
  | some q =>
      dsimp only
      cases h with
      | var v =>
          refine (stepOver_both peeked).bind ?_
          rintro t _ ⟨leads, rfl, same⟩
          rw [same]
          cases s.ledger.unifyVariable v q with
          | none => exact .answered (.skip leads same)
          | some τ => exact .answered (.descend leads .compare)
      | binder b =>
          cases q.head with
          | var v => exact beginning_both peeked v _
          | binder c => exact .refused _
          | symbol other => exact matching_both peeked _ _
      | symbol f =>
          cases q.head with
          | var v => exact beginning_both peeked v _
          | binder c => exact .refused _
          | symbol other => exact matching_both peeked _ _

theorem through_both (s : SearchState) {mode : SearchMode} {descent : Descent}
    (reads : mode.Reads s.buffer descent) (h : Head) :
    Both s.Passes (s.through mode h) (Passage.through s.ledger s.walk.frames descent h) := by
  cases reads with
  | compare => exact s.comparing_both h
  | collect inside => exact s.collecting_both _ _ h inside

end SearchState

/-! ## Levels -/

/-- A level is where a choice point stood: its walk, its part of the buffer and its next node. -/
structure SearchLevel.Marks (level : SearchLevel α) (walk : InstanceWalk) (buffer : List Head)
    (cp : ChoicePoint α) : Prop where
  siblings_eq : cp.siblings = level.siblings.drop level.next
  frames_eq : cp.frames = walk.frames
  savepoint_eq : cp.savepoint = level.mark.ledger
  reads : level.mode.Reads buffer cp.descent

/-- Going back through the states of a walk, and cutting off its buffer, leads to where each of the
choice points stood, the one reached last first. -/
inductive Stands : InstanceWalk → List InstanceWalk → List Head →
    List (SearchLevel α) → List (ChoicePoint α) → Prop where
  | nil {now : InstanceWalk} {past : List InstanceWalk} {buffer : List Head} :
      Stands now past buffer [] []
  | cons {now u : InstanceWalk} {past older : List InstanceWalk} {buffer : List Head}
      {level : SearchLevel α} {cp : ChoicePoint α} {outer : List (SearchLevel α)}
      {outer' : List (ChoicePoint α)} :
      u :: older <:+ now :: past → level.mark.walk = ⟨older.length⟩ →
      level.mark.buffer ≤ buffer.length →
      level.Marks u (buffer.take level.mark.buffer) cp →
      Stands u older (buffer.take level.mark.buffer) outer outer' →
      Stands now past buffer (level :: outer) (cp :: outer')

namespace Stands

variable {now later : InstanceWalk} {past newer : List InstanceWalk} {buffer buffer' : List Head}
  {levels : List (SearchLevel α)} {cps : List (ChoicePoint α)}

/-- What is done on the way down does not matter to the levels. -/
theorem mono (stands : Stands now past buffer levels cps) (kept : now :: past <:+ later :: newer)
    (longer : buffer <+: buffer') : Stands later newer buffer' levels cps := by
  cases stands with
  | nil => exact .nil
  | cons inside mark within marks below =>
      obtain ⟨added, rfl⟩ := longer
      refine .cons (inside.trans kept) mark (within.trans (by simp)) ?_ ?_
      · rwa [List.take_append_of_le_length within]
      · rwa [List.take_append_of_le_length within]

/-- Going back to a level, and on from there to another state, leaves the level where it was. -/
theorem again {u : InstanceWalk} {older : List InstanceWalk} {level : SearchLevel α}
    {cp : ChoicePoint α} {outer : List (SearchLevel α)} {outer' : List (ChoicePoint α)}
    (kept : u :: older <:+ now :: past) (mark : level.mark.walk = ⟨older.length⟩)
    (length : buffer.length = level.mark.buffer) (longer : buffer <+: buffer')
    (marks : level.Marks u buffer cp) (below : Stands u older buffer outer outer') :
    Stands now past buffer' (level :: outer) (cp :: outer') := by
  have front : buffer'.take level.mark.buffer = buffer := by
    rw [← length]
    exact (List.prefix_iff_eq_take.1 longer).symm
  refine .cons kept mark (length ▸ longer.length_le) ?_ ?_
  · rwa [front]
  · rwa [front]

end Stands

namespace SearchState

/-- Going back to a mark undoes the steps and the bindings made since and cuts off the buffer. -/
theorem backTo_both {s : SearchState} {past : List InstanceWalk} (recalls : s.walk.Recalls past)
    {u : InstanceWalk} {older : List InstanceWalk} (kept : u :: older <:+ s.walk :: past)
    {m : SearchMark} (mark : m.walk = ⟨older.length⟩) :
    Both (fun t σ => t = ⟨u, s.buffer.take m.buffer, σ⟩) (s.backTo m)
      (s.ledger.backtrackTo m.ledger) := by
  rw [backTo, mark, (recalls.backtrackTo kept).1]
  cases s.ledger.backtrackTo m.ledger with
  | error fault => exact .refused fault
  | ok σ => exact .answered rfl

end SearchState

namespace Retriever

variable {c : Cluster}

/-- Both searches came to the same objects and the same ledger, at the same place. -/
def SameAdvance (a : List α × List (SearchLevel α) × SearchState)
    (a' : List α × List (ChoicePoint α) × Unifier) : Prop :=
  a.1 = a'.1 ∧ a.2.2.ledger = a'.2.2 ∧ ∃ past, a.2.2.walk.Recalls past ∧
    Stands a.2.2.walk past a.2.2.buffer a.2.1 a'.2.1

theorem advance_both {levels : List (SearchLevel α)} {s : SearchState} {past : List InstanceWalk}
    {cps : List (ChoicePoint α)} (recalls : s.walk.Recalls past)
    (stands : Stands s.walk past s.buffer levels cps) :
    Both SameAdvance (advance c levels s) (Retrieval.advance c cps s.ledger) := by
  induction levels, s using advance.induct generalizing past cps with
  | case1 s =>
      cases stands
      rw [advance, Retrieval.advance]
      exact .answered ⟨rfl, rfl, past, recalls, .nil⟩
  | case2 s level outer none ih =>
      cases stands with
      | @cons _ u _ older _ _ cp _ outer' inside mark within marks below =>
          obtain ⟨siblings, frames, savepoint, descent⟩ := cp
          obtain rfl : siblings = [] :=
            marks.siblings_eq.trans (List.drop_eq_nil_of_le (List.getElem?_eq_none_iff.1 none))
          rw [advance, none, Retrieval.advance]
          exact ih recalls (below.mono inside (List.take_prefix _ _))
  | case3 s level outer h summary test leaves children found ihLater ihOuter ihChildren =>
      cases stands with
      | @cons _ u _ older _ _ cp _ outer' inside mark within marks below =>
          obtain ⟨siblings, frames, savepoint, descent⟩ := cp
          obtain ⟨rfl, rfl, rfl, reads⟩ := marks
          obtain ⟨present, here⟩ := List.getElem?_eq_some_iff.1 found
          have length : (s.buffer.take level.mark.buffer).length = level.mark.buffer :=
            List.length_take_of_le within
          have recalled := (recalls.backtrackTo inside).2
          -- Wherever the search comes to from here, the level is still there behind it.
          have others {t : SearchState} {newer : List InstanceWalk}
              (kept : u :: older <:+ t.walk :: newer)
              (longer : s.buffer.take level.mark.buffer <+: t.buffer) :
              Stands t.walk newer t.buffer (level.tried :: outer)
                (⟨level.siblings.drop (level.next + 1), u.frames, level.mark.ledger, descent⟩ ::
                  outer') :=
            .again kept mark length longer ⟨rfl, rfl, rfl, reads⟩ below
          rw [advance, found, List.drop_eq_getElem_cons present, here, Retrieval.advance]
          refine (SearchState.backTo_both recalls inside mark).bind ?_
          rintro _ σ rfl
          split
          · exact ihLater _ recalled (others (List.suffix_refl _) (List.prefix_refl _))
          · refine (SearchState.through_both ⟨u, s.buffer.take level.mark.buffer, σ⟩ reads h).bind ?_
            rintro _ _ passes
            cases passes with
            | @skip t leads same =>
                obtain rfl : σ = t.ledger := same.symm
                obtain ⟨newer, recalls', kept⟩ := leads.2 older recalled
                exact ihLater _ recalls' (others kept leads.1)
            | @exhausted t leads same =>
                obtain rfl : σ = t.ledger := same.symm
                obtain ⟨newer, recalls', kept⟩ := leads.2 older recalled
                exact ihOuter _ recalls' (below.mono kept leads.1)
            | @descend t mode innerDescent leads reads' =>
                obtain ⟨newer, recalls', kept⟩ := leads.2 older recalled
                cases children with
                | cons first rest =>
                    exact ihChildren _ _ recalls' (.again (List.suffix_refl _) recalls'.mark_eq rfl
                      (List.prefix_refl _) ⟨rfl, rfl, rfl, reads'⟩ (others kept leads.1))
                | nil =>
                    dsimp only [List.isEmpty_nil]
                    rw [if_pos rfl, if_pos rfl, reads'.isCompare_eq]
                    refine (Both.same _).bind ?_
                    rintro _ _ rfl
                    cases (leaves.lookup c).getD [] with
                    | nil => exact ihLater _ recalls' (others kept leads.1)
                    | cons object pending =>
                        exact .answered ⟨rfl, rfl, newer, recalls', others kept leads.1⟩

/-! ## Requests -/

/-- The search that holds states and is in a given phase. -/
def holding (r : Retriever α) (phase : Phase α) : Retrieval α :=
  ⟨r.isOpen, phase, r.query, r.cluster, r.start, r.bareVariables⟩

end Retriever

/-- Both are in the same phase, and levels are where choice points stood. -/
inductive RetrieverPhase.Shows (walk : InstanceWalk) (buffer : List Head)
    (levels : List (SearchLevel α)) : RetrieverPhase α → Phase α → Prop where
  | idle : Shows walk buffer levels .idle .idle
  | tree {past : List InstanceWalk} {cps : List (ChoicePoint α)} {pending : List α} :
      walk.Recalls past → Stands walk past buffer levels cps →
      Shows walk buffer levels (.tree pending) (.tree cps pending)
  | sweeping {entries : List (Variable × List α)} {pending : List α} :
      Shows walk buffer levels (.sweeping entries pending) (.sweeping entries pending)
  | done : Shows walk buffer levels .done .done

namespace Retriever

variable {c : Cluster} {ix : Index α} {r : Retriever α} {r' : Retrieval α}

/-- A retriever is where a search that holds states is. -/
inductive Shows : Retriever α → Retrieval α → Prop where
  | intro {r : Retriever α} {phase : Phase α} :
      r.phase.Shows r.walk r.buffer r.stack phase → Shows r (r.holding phase)

theorem shows_idle : Shows (idle : Retriever α) Retrieval.idle :=
  .intro (r := idle) .idle

/-- Both calls give the same object and the same ledger. -/
def SameCall (a : Option α × Retriever α × Unifier) (a' : Option α × Retrieval α × Unifier) : Prop :=
  a.1 = a'.1 ∧ a.2.1.Shows a'.2.1 ∧ a.2.2 = a'.2.2

theorem sweep_both (r : Retriever α) (phase : Phase α) (entries : List (Variable × List α))
    (σ : Unifier) : Both SameCall (r.sweep entries σ) ((r.holding phase).sweep entries σ) := by
  induction entries generalizing σ with
  | nil =>
      refine (Both.same (σ.backtrackTo r.start)).bind ?_
      rintro τ _ rfl
      exact .answered ⟨rfl, .intro .done, rfl⟩
  | cons entry rest ih =>
      obtain ⟨v, objects⟩ := entry
      refine (Both.same (σ.backtrackTo r.start)).bind ?_
      rintro τ _ rfl
      have same : (r.holding phase).query = r.query := rfl
      rw [same]
      cases r.query.bind (Unifier.unifyVariable τ v) with
      | none => exact ih τ
      | some υ =>
          cases objects with
          | nil => exact ih υ
          | cons object pending => exact .answered ⟨rfl, .intro .sweeping, rfl⟩

theorem Shows.next (shows' : r.Shows r') (σ : Unifier) :
    Both SameCall (r.next σ) (r'.next σ) := by
  obtain ⟨isOpen, place, query, cluster, start, bareVariables, walk, buffer, stack⟩ := r
  obtain ⟨shown⟩ := shows'
  cases shown with
  | idle => exact .answered ⟨rfl, .intro .idle, rfl⟩
  | done => exact .answered ⟨rfl, .intro .done, rfl⟩
  | @sweeping entries pending =>
      cases pending with
      | nil => exact sweep_both _ _ entries σ
      | cons object pending => exact .answered ⟨rfl, .intro .sweeping, rfl⟩
  | @tree past cps pending recalls stands =>
      cases pending with
      | cons object pending => exact .answered ⟨rfl, .intro (.tree recalls stands), rfl⟩
      | nil =>
          refine (advance_both (s := ⟨walk, buffer, σ⟩) recalls stands).bind ?_
          rintro ⟨objects, levels, s⟩ ⟨_, cps', _⟩ ⟨rfl, rfl, past', recalls', stands'⟩
          cases objects with
          | cons object pending => exact .answered ⟨rfl, .intro (.tree recalls' stands'), rfl⟩
          | nil =>
              refine (Both.same (s.ledger.backtrackTo start)).bind ?_
              rintro τ _ rfl
              exact sweep_both ⟨isOpen, _, query, cluster, start, bareVariables, s.walk, s.buffer,
                levels⟩ _ bareVariables τ

theorem Shows.release_eq (shows' : r.Shows r') (ix : Index α) : r.release ix = r'.release ix := by
  obtain ⟨shown⟩ := shows'
  rfl

/-- Both requests leave the index and the ledger the same. -/
def SameRequest (a : Retriever α × Index α × Unifier) (a' : Retrieval α × Index α × Unifier) : Prop :=
  a.1.Shows a'.1 ∧ a.2 = a'.2

theorem Shows.finish (shows' : r.Shows r') (ix : Index α) (σ : Unifier) :
    Both SameRequest (r.finish ix σ) (r'.finish ix σ) := by
  obtain ⟨isOpen, place, query, cluster, start, bareVariables, walk, buffer, stack⟩ := r
  obtain ⟨shown⟩ := shows'
  have given (x : Checked Unifier) :
      Both SameRequest (x >>= fun σ => pure (idle, release ⟨isOpen, place, query, cluster, start,
          bareVariables, walk, buffer, stack⟩ ix, σ))
        (x >>= fun σ => pure (Retrieval.idle, release ⟨isOpen, place, query, cluster, start,
          bareVariables, walk, buffer, stack⟩ ix, σ)) := by
    refine (Both.same x).bind ?_
    rintro τ _ rfl
    exact .answered ⟨shows_idle, rfl⟩
  cases shown with
  | idle => exact given (pure σ)
  | done => exact given (σ.backtrackTo start)
  | tree => exact given (σ.backtrackTo start)
  | sweeping => exact given (σ.backtrackTo start)

theorem shows_asking (ix : Index α) (query : Subterm) (c : Cluster) (σ : Unifier)
    (roots : List (Node α)) :
    (asking ix query c σ roots).Shows (Retrieval.asking ix query c σ roots) := by
  have first : (InstanceWalk.start query).Recalls [] := .first (List.cons_ne_nil _ _) rfl
  have top : Stands (InstanceWalk.start query) [] [] (asking ix query c σ roots).stack
      [Retrieval.atRoots query σ roots] :=
    .again (List.suffix_refl _) rfl rfl (List.prefix_refl _) ⟨rfl, rfl, rfl, .compare⟩ .nil
  exact .intro (r := asking ix query c σ roots) (.tree first top)

theorem Shows.reset (shows' : r.Shows r') (ix : Index α) (query : Subterm) (c : Cluster)
    (σ : Unifier) :
    Both SameRequest (r.reset ix query c σ) (r'.reset ix query c σ) := by
  have put (ix : Index α) (τ : Unifier) :
      Both SameRequest
        (Retrieval.rootsBelow ix c (Unifier.deref τ query).head >>= fun roots =>
          pure (asking ix query c τ roots, { ix with openRetrievals := ix.openRetrievals + 1 }, τ))
        (Retrieval.rootsBelow ix c (Unifier.deref τ query).head >>= fun roots =>
          pure (Retrieval.asking ix query c τ roots,
            { ix with openRetrievals := ix.openRetrievals + 1 }, τ)) := by
    refine (Both.same _).bind ?_
    rintro roots _ rfl
    exact .answered ⟨shows_asking ix query c τ roots, rfl⟩
  have same : r.isOpen = r'.isOpen := by
    obtain ⟨shown⟩ := shows'
    rfl
  rw [Retriever.reset, Retrieval.reset, ← same]
  refine (Both.same _).bind ?_
  rintro _ _ rfl
  split
  · refine (shows'.finish ix σ).bind ?_
    rintro ⟨_, ix, τ⟩ ⟨_, _, _⟩ ⟨-, ⟨⟩⟩
    exact put ix τ
  · exact put ix σ

end Retriever

/-! ## Sessions -/

/-- An index with retrievers and ledgers. -/
structure RetrieverSession (α : Type) where
  index : Index α
  retriever : Nat → Retriever α
  ledger : Nat → Unifier

namespace RetrieverSession

/-- A session of an index, with nothing in use and nothing bound. -/
def new (ix : Index α) : RetrieverSession α := ⟨ix, fun _ => .idle, fun _ => .empty⟩

/-- What a step answers, and the session after it. -/
def step (s : RetrieverSession α) : SessionStep α → SessionReply α × RetrieverSession α
  | .reset k l query c =>
    match (s.retriever k).reset s.index query c (s.ledger l) with
    | .error fault => (.refused fault, s)
    | .ok (r, ix, σ) => (.done, ⟨ix, Function.update s.retriever k r, Function.update s.ledger l σ⟩)
  | .next k l =>
    match (s.retriever k).next (s.ledger l) with
    | .error fault => (.refused fault, s)
    | .ok (object, r, σ) => (.called object σ,
        ⟨s.index, Function.update s.retriever k r, Function.update s.ledger l σ⟩)
  | .finish k l =>
    match (s.retriever k).finish s.index (s.ledger l) with
    | .error fault => (.refused fault, s)
    | .ok (r, ix, σ) => (.done, ⟨ix, Function.update s.retriever k r, Function.update s.ledger l σ⟩)
  | .drop k =>
    (.done, ⟨(s.retriever k).release s.index, Function.update s.retriever k .idle, s.ledger⟩)
  | .change change =>
    match change.perform s.index with
    | .error fault => (.refused fault, s)
    | .ok (count, ix) => (.changed count, { s with index := ix })

/-- What several steps answer. -/
def replies (s : RetrieverSession α) : List (SessionStep α) → List (SessionReply α)
  | [] => []
  | st :: rest => (s.step st).1 :: replies (s.step st).2 rest

end RetrieverSession

/-- What several steps answer. -/
def Session.replies (s : Session α) : List (SessionStep α) → List (SessionReply α)
  | [] => []
  | st :: rest => (s.step st).1 :: replies (s.step st).2 rest

namespace RetrieverSession

/-- Every retriever is where the search of the same name is, under the same ledgers. -/
structure Shows (s : RetrieverSession α) (s' : Session α) : Prop where
  index_eq : s.index = s'.index
  ledger_eq : s.ledger = s'.ledger
  retriever : ∀ k, (s.retriever k).Shows (s'.search k)

variable {s : RetrieverSession α} {s' : Session α}

theorem Shows.update (shows' : s.Shows s') (k : Nat) {r : Retriever α} {r' : Retrieval α}
    (shown : r.Shows r') (ix : Index α) (ledger : Nat → Unifier) :
    Shows ⟨ix, Function.update s.retriever k r, ledger⟩
      ⟨ix, Function.update s'.search k r', ledger⟩ where
  index_eq := rfl
  ledger_eq := rfl
  retriever j := by
    dsimp only
    by_cases same : j = k
    · subst same
      rwa [Function.update_self, Function.update_self]
    · rw [Function.update_of_ne same, Function.update_of_ne same]
      exact shows'.retriever j

theorem Shows.step (shows' : s.Shows s') (st : SessionStep α) :
    (s.step st).1 = (s'.step st).1 ∧ (s.step st).2.Shows (s'.step st).2 := by
  obtain ⟨ix, retriever, ledger⟩ := s
  obtain ⟨_, search, _⟩ := s'
  obtain ⟨rfl, rfl, shown⟩ := id shows'
  cases st with
  | reset k l query c =>
      rw [RetrieverSession.step, Session.step]
      dsimp only
      rcases ((shown k).reset ix query c (ledger l)).cases with
        ⟨fault, refused, refused'⟩ | ⟨⟨r, ix', σ⟩, ⟨r', _, _⟩, put, put', after, ⟨⟩⟩
      · rw [refused, refused']
        exact ⟨rfl, shows'⟩
      · rw [put, put']
        exact ⟨rfl, shows'.update k after _ _⟩
  | next k l =>
      rw [RetrieverSession.step, Session.step, Retrieval.call]
      dsimp only
      rcases ((shown k).next (ledger l)).cases with
        ⟨fault, refused, refused'⟩ | ⟨⟨object, r, σ⟩, ⟨_, r', _⟩, given, given', rfl, after, rfl⟩
      · rw [refused, refused']
        refine ⟨rfl, ?_⟩
        dsimp only
        rwa [Function.update_eq_self, Function.update_eq_self]
      · rw [given, given']
        exact ⟨rfl, shows'.update k after _ _⟩
  | finish k l =>
      rw [RetrieverSession.step, Session.step]
      dsimp only
      rcases ((shown k).finish ix (ledger l)).cases with
        ⟨fault, refused, refused'⟩ | ⟨⟨r, ix', σ⟩, ⟨r', _, _⟩, givenUp, givenUp', after, ⟨⟩⟩
      · rw [refused, refused']
        exact ⟨rfl, shows'⟩
      · rw [givenUp, givenUp']
        exact ⟨rfl, shows'.update k after _ _⟩
  | drop k =>
      refine ⟨rfl, ?_⟩
      rw [RetrieverSession.step, Session.step]
      dsimp only
      rw [(shown k).release_eq ix]
      exact shows'.update k Retriever.shows_idle _ _
  | change change =>
      rw [RetrieverSession.step, Session.step]
      dsimp only
      cases change.perform ix with
      | error fault => exact ⟨rfl, shows'⟩
      | ok result => exact ⟨rfl, rfl, rfl, shown⟩

/-- A session of retrievers answers every step as a session of searches that hold states does. -/
theorem replies_eq (ix : Index α) (steps : List (SessionStep α)) :
    (new ix).replies steps = (Session.new ix).replies steps := by
  have onward {s : RetrieverSession α} {s' : Session α} (shows' : s.Shows s') :
      s.replies steps = s'.replies steps := by
    induction steps generalizing s s' with
    | nil => rfl
    | cons st rest ih =>
        obtain ⟨same, later⟩ := shows'.step st
        rw [replies, Session.replies, same, ih later]
  exact onward ⟨rfl, rfl, fun _ => Retriever.shows_idle⟩

end RetrieverSession

end SaturationCore
