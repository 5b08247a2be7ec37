/-
# An index refines its contents

Storing, erasing and relocating are done on two paths, in the store of a bare variable
or in the trees of a bucket. On either path a change of the index is the change of the
function from keys to lists of objects that the index is read as: objects are added
behind those of one key, or some of those of one key are given up.

What holds of one change holds of histories by induction. An index with some history
answers what the contents answer and holds what the contents hold, and it counts as
many objects as there are.
-/
import SaturationCore.Proofs.DiscriminationTree.History
import SaturationCore.Proofs.DiscriminationTree.Shape

namespace SaturationCore

variable {α : Type}

namespace Index

variable {ix ix' : Index α} {t : Subterm} {c target : Cluster} {v : Variable} {s : Symbol}
  {object : α} {condition : α → Bool}

/-- The index is shaped and holds these contents, and it differs from `ix` in nothing
that its contents do not show. -/
structure Shows (ix : Index α) (m : Contents α) (ix' : Index α) : Prop where
  shaped : ix'.Shaped
  contents : ix'.contents = m
  size_eq : ix'.size = ix.size
  openRetrievals_eq : ix'.openRetrievals = ix.openRetrievals

theorem Shaped.resize (shaped : ix.Shaped) (size : Nat) : Shaped { ix with size } :=
  ⟨shaped.bucketed, shaped.bucket, shaped.rooted, shaped.clusters, shaped.bare⟩

theorem Shaped.reopen (shaped : ix.Shaped) (openRetrievals : Nat) :
    Shaped { ix with openRetrievals } :=
  ⟨shaped.bucketed, shaped.bucket, shaped.rooted, shaped.clusters, shaped.bare⟩

theorem Shows.resize {m : Contents α} (shown : ix.Shows m ix') (size : Nat) :
    Shows { ix with size } m { ix' with size } :=
  ⟨shown.shaped.resize size, shown.contents, rfl, shown.openRetrievals_eq⟩

/-! ## One key at a time -/

theorem shows_assign_variable (shaped : ix.Shaped) (objects : List α) :
    ix.Shows (Function.update ix.contents ⟨[.var v], c⟩ objects)
      (ix.alterVariable v c fun _ => if objects.isEmpty then none else some objects) := by
  refine ⟨shaped.alterVariable fun _ made => ?_, ?_, rfl, rfl⟩
  · cases objects with
    | nil => cases made
    | cons object rest => cases made
  · rw [contents_alterVariable shaped]
    congr 1
    cases objects with
    | nil => rfl
    | cons object rest => rfl

theorem shows_append_variable (shaped : ix.Shaped) {objects : List α} (some : objects ≠ []) :
    ix.Shows (ix.contents.append ⟨[.var v], c⟩ objects)
      (ix.alterVariable v c fun old => .some (old.getD [] ++ objects)) := by
  refine ⟨shaped.alterVariable fun old made => some ?_, ?_, rfl, rfl⟩
  · exact (List.append_eq_nil_iff.1 (Option.some.inj made)).2
  · rw [contents_alterVariable shaped]
    rfl

/-- Changing the leaves at the end of a spelling, when the change is known by what it
gives to each cluster. -/
theorem shows_alterTree (shaped : ix.Shaped) (head : t.head = .symbol s)
    (plain : t.isQuantifierFree = true)
    {change : List (Cluster × List α) → List (Cluster × List α)} {m : Contents α}
    (keeps : ∀ leaves, Association.Tidy leaves → Association.Tidy (change leaves))
    (elsewhere : ∀ k, k.spelling ≠ t.spelling → m k = ix.contents k)
    (here : ∀ d leaves, Association.Tidy leaves →
      (∀ d, (leaves.lookup d).getD [] = ix.contents ⟨t.spelling, d⟩) →
        ((change leaves).lookup d).getD [] = m ⟨t.spelling, d⟩) :
    ix.Shows m (ix.alterTree (s.id % ix.buckets.size) t.spelling change) := by
  refine ⟨shaped.alterTree head (Subterm.isQuantifierFree_iff.1 plain) keeps, ?_, rfl, rfl⟩
  funext ⟨spelling, d⟩
  rw [contents_alterTree shaped head]
  by_cases same : spelling = t.spelling
  · subst same
    rw [if_pos rfl]
    refine here d _ ((shaped.bucket _).forest.tidy_leavesAt t.spells) fun d => ?_
    rw [contents_of_head_eq_symbol head]
  · rw [if_neg same]
    exact (elsewhere _ same).symm

theorem shows_append_tree (shaped : ix.Shaped) (head : t.head = .symbol s)
    (plain : t.isQuantifierFree = true) {objects : List α} (some : objects ≠ []) :
    ix.Shows (ix.contents.append ⟨t.spelling, c⟩ objects)
      (ix.alterTree (s.id % ix.buckets.size) t.spelling (Association.append c objects)) := by
  refine shows_alterTree shaped head plain (fun _ tidy => tidy.append some) ?_ ?_
  · exact fun k other => Function.update_of_ne (fun same => other (congrArg Key.spelling same)) _ _
  · intro d leaves tidy same
    rw [Association.getD_lookup_append tidy, same, same, Contents.append, Function.update_apply]
    exact if_congr (by rw [Key.mk.injEq, and_iff_right rfl]) rfl rfl

theorem shows_assign_tree (shaped : ix.Shaped) (head : t.head = .symbol s)
    (plain : t.isQuantifierFree = true) (objects : List α) :
    ix.Shows (Function.update ix.contents ⟨t.spelling, c⟩ objects)
      (ix.alterTree (s.id % ix.buckets.size) t.spelling (Association.assign c objects)) := by
  refine shows_alterTree shaped head plain (fun _ tidy => tidy.assign objects) ?_ ?_
  · exact fun k other => Function.update_of_ne (fun same => other (congrArg Key.spelling same)) _ _
  · intro d leaves tidy same
    rw [Association.getD_lookup_assign tidy, same, Function.update_apply]
    exact if_congr (by rw [Key.mk.injEq, and_iff_right rfl]) rfl rfl

theorem shows_move_tree (shaped : ix.Shaped) (head : t.head = .symbol s)
    (plain : t.isQuantifierFree = true) {moved : List α} (some : moved ≠ []) (kept : List α) :
    ix.Shows (Contents.append (Function.update ix.contents ⟨t.spelling, c⟩ kept)
        ⟨t.spelling, target⟩ moved)
      (ix.alterTree (s.id % ix.buckets.size) t.spelling fun leaves =>
        Association.append target moved (Association.assign c kept leaves)) := by
  refine shows_alterTree shaped head plain (fun _ tidy => (tidy.assign kept).append some) ?_ ?_
  · intro k other
    rw [Contents.append, Function.update_of_ne fun same => other (congrArg Key.spelling same),
      Function.update_of_ne fun same => other (congrArg Key.spelling same)]
  · intro d leaves tidy same
    have assigned (e : Cluster) : ((Association.assign c kept leaves).lookup e).getD [] =
        Function.update ix.contents ⟨t.spelling, c⟩ kept ⟨t.spelling, e⟩ := by
      rw [Association.getD_lookup_assign tidy, same, Function.update_apply]
      exact if_congr (by rw [Key.mk.injEq, and_iff_right rfl]) rfl rfl
    rw [Association.getD_lookup_append (tidy.assign kept), assigned, assigned, Contents.append]
    by_cases there : d = target
    · subst there
      rw [if_pos rfl, Function.update_self]
    · rw [if_neg there, Function.update_of_ne fun same => there (Key.mk.inj same).2]

/-! ## Single changes -/

theorem requireClosed_eq_ok_iff {u : Unit} : ix.requireClosed = .ok u ↔ ix.openRetrievals = 0 := by
  rw [requireClosed, require_eq_ok_iff, beq_iff_eq]

theorem plain_of_contents (shaped : ix.Shaped) (head : t.head = .symbol s)
    (held : ix.contents ⟨t.spelling, c⟩ ≠ []) : t.isQuantifierFree = true := by
  rw [contents_of_head_eq_symbol head] at held
  refine Subterm.isQuantifierFree_iff.2 ?_
  apply (shaped.bucket (s.id % ix.buckets.size)).forest.plain_of_leavesAt t.spells
  intro empty
  rw [empty] at held
  exact held rfl

theorem insert_shows (shaped : ix.Shaped) (done : ix.insert t c object = .ok ix') :
    ix.openRetrievals = 0 ∧
      Shows { ix with size := ix.size + 1 } (ix.contents.append ⟨t.spelling, c⟩ [object]) ix' := by
  obtain ⟨_, closed, done⟩ := bind_eq_ok_iff.1 done
  obtain ⟨_, plain, done⟩ := bind_eq_ok_iff.1 done
  rw [requireClosed_eq_ok_iff] at closed
  rw [require_eq_ok_iff] at plain
  refine ⟨closed, ?_⟩
  have grown := shaped.resize (ix.size + 1)
  rcases Subterm.head_cases plain with ⟨v, head⟩ | ⟨s, head⟩
  · rw [asVariable_of_head_eq_var head] at done
    cases done
    rw [Subterm.spelling_of_head_eq_var head]
    exact shows_append_variable grown (List.cons_ne_nil object [])
  · rw [asVariable_of_head_eq_symbol head, head] at done
    cases done
    exact shows_append_tree grown head plain (List.cons_ne_nil object [])

theorem exists_insert (c : Cluster) (object : α) (closed : ix.openRetrievals = 0)
    (plain : t.isQuantifierFree = true) :
    ∃ ix', ix.insert t c object = .ok ix' := by
  rw [insert, requireClosed, closed, plain]
  rcases Subterm.head_cases plain with ⟨v, head⟩ | ⟨s, head⟩
  · rw [asVariable_of_head_eq_var head]
    exact ⟨_, rfl⟩
  · rw [asVariable_of_head_eq_symbol head, head]
    exact ⟨_, rfl⟩

section Splitting

variable {found : List α} {made : Index α} {m : Contents α} {count : Nat}

/-- Erasing and relocating stop where no object meets the condition, and else come to
another index. The base is the index as far as its contents do not show it. -/
theorem split_shows (base : Nat → Index α) (stays : base 0 = ix) (shaped : ix.Shaped)
    (none : found = [] → m = ix.contents)
    (some : found ≠ [] → (base found.length).Shows m made)
    (done : (if found.isEmpty then pure (0, ix) else pure (found.length, made) :
      Checked (Nat × Index α)) = .ok (count, ix')) :
    count = found.length ∧ (base count).Shows m ix' ∧ (count = 0 → ix' = ix) := by
  cases found with
  | nil =>
      cases done
      rw [stays, none rfl]
      exact ⟨rfl, ⟨shaped, rfl, rfl, rfl⟩, fun _ => rfl⟩
  | cons object rest =>
      cases done
      exact ⟨rfl, some (List.cons_ne_nil _ _), fun zero => nomatch zero⟩

theorem plain_of_filter (shaped : ix.Shaped) (head : t.head = .symbol s)
    (some : (ix.contents ⟨t.spelling, c⟩).filter condition ≠ []) : t.isQuantifierFree = true := by
  refine plain_of_contents shaped head (c := c) fun empty => some ?_
  rw [empty]
  rfl

end Splitting

theorem erase_shows (shaped : ix.Shaped) {count : Nat}
    (done : ix.erase t c condition = .ok (count, ix')) :
    ix.openRetrievals = 0 ∧ count = (ix.contents ⟨t.spelling, c⟩).countP condition ∧
      Shows { ix with size := ix.size - count } (ix.contents.prune ⟨t.spelling, c⟩ condition) ix' ∧
      (count = 0 → ix' = ix) := by
  obtain ⟨_, closed, done⟩ := bind_eq_ok_iff.1 done
  rw [requireClosed_eq_ok_iff] at closed
  rw [List.countP_eq_length_filter]
  refine ⟨closed, ?_⟩
  cases var : t.asVariable with
  | some v =>
      have head := Subterm.asVariable_eq_some.1 var
      rw [var] at done
      simp only [List.partition_eq_filter_filter, ← contents_of_head_eq_var head] at done
      refine split_shows (fun count => { ix with size := ix.size - count }) rfl shaped
        (Contents.prune_of_filter_eq_nil _) (fun some => ?_) done
      rw [Subterm.spelling_of_head_eq_var head]
      exact (shows_assign_variable shaped _).resize _
  | none =>
      rw [var] at done
      obtain ⟨⟨place, found⟩, looked, done⟩ := bind_eq_ok_iff.1 done
      obtain ⟨s, head, rfl, rfl⟩ := of_treeObjects looked
      simp only [List.partition_eq_filter_filter] at done
      refine split_shows (fun count => { ix with size := ix.size - count }) rfl shaped
        (Contents.prune_of_filter_eq_nil _) (fun some => ?_) done
      exact (shows_assign_tree shaped head (plain_of_filter shaped head some) _).resize _

theorem relocate_shows (shaped : ix.Shaped) {count : Nat}
    (done : ix.relocate t c target condition = .ok (count, ix')) :
    ix.openRetrievals = 0 ∧ count = (ix.contents ⟨t.spelling, c⟩).countP condition ∧
      Shows ix ((ix.contents.prune ⟨t.spelling, c⟩ condition).append ⟨t.spelling, target⟩
        ((ix.contents ⟨t.spelling, c⟩).filter condition)) ix' ∧
      (count = 0 → ix' = ix) := by
  obtain ⟨_, closed, done⟩ := bind_eq_ok_iff.1 done
  rw [requireClosed_eq_ok_iff] at closed
  rw [List.countP_eq_length_filter]
  refine ⟨closed, ?_⟩
  have unchanged (none : (ix.contents ⟨t.spelling, c⟩).filter condition = []) :
      (ix.contents.prune ⟨t.spelling, c⟩ condition).append ⟨t.spelling, target⟩
        ((ix.contents ⟨t.spelling, c⟩).filter condition) = ix.contents := by
    rw [Contents.prune_of_filter_eq_nil _ none, none, Contents.append, List.append_nil,
      Function.update_eq_self]
  cases var : t.asVariable with
  | some v =>
      have head := Subterm.asVariable_eq_some.1 var
      rw [var] at done
      simp only [List.partition_eq_filter_filter, ← contents_of_head_eq_var head] at done
      refine split_shows (fun _ => ix) rfl shaped unchanged (fun some => ?_) done
      rw [Subterm.spelling_of_head_eq_var head] at some ⊢
      have pruned := shows_assign_variable shaped (v := v) (c := c)
        ((ix.contents ⟨[.var v], c⟩).filter (not ∘ condition))
      have moved := shows_append_variable pruned.shaped (v := v) (c := target) some
      rw [pruned.contents] at moved
      exact ⟨moved.shaped, moved.contents, rfl, rfl⟩
  | none =>
      rw [var] at done
      obtain ⟨⟨place, found⟩, looked, done⟩ := bind_eq_ok_iff.1 done
      obtain ⟨s, head, rfl, rfl⟩ := of_treeObjects looked
      simp only [List.partition_eq_filter_filter] at done
      refine split_shows (fun _ => ix) rfl shaped unchanged (fun some => ?_) done
      exact shows_move_tree shaped head (plain_of_filter shaped head some) some _

/-- Take the objects under a term and a cluster apart by a condition. Where some meet it, they are
counted, and another index takes the place of this one. -/
def takeApart (ix : Index α) (t : Subterm) (c : Cluster) (condition : α → Bool)
    (bare : Variable → List α × List α → Index α) (tree : Nat → List α × List α → Index α) :
    Checked (Nat × Index α) := do
  ix.requireClosed
  match t.asVariable with
  | some v =>
    let parts := (ix.variableObjects v c).partition condition
    if parts.1.isEmpty then return (0, ix) else return (parts.1.length, bare v parts)
  | none =>
    let (place, objects) ← ix.treeObjects t c
    let parts := objects.partition condition
    if parts.1.isEmpty then return (0, ix) else return (parts.1.length, tree place parts)

theorem erase_eq_takeApart (ix : Index α) (t : Subterm) (c : Cluster) (condition : α → Bool) :
    ix.erase t c condition = ix.takeApart t c condition
      (fun v parts =>
        let ix := ix.alterVariable v c fun _ => if parts.2.isEmpty then none else some parts.2
        { ix with size := ix.size - parts.1.length })
      (fun place parts =>
        let ix := ix.alterTree place t.spelling (Association.assign c parts.2)
        { ix with size := ix.size - parts.1.length }) := rfl

theorem relocate_eq_takeApart (ix : Index α) (t : Subterm) (c target : Cluster)
    (condition : α → Bool) :
    ix.relocate t c target condition = ix.takeApart t c condition
      (fun v parts =>
        let ix := ix.alterVariable v c fun _ => if parts.2.isEmpty then none else some parts.2
        ix.alterVariable v target fun old => some (old.getD [] ++ parts.1))
      (fun place parts => ix.alterTree place t.spelling fun leaves =>
        Association.append target parts.1 (Association.assign c parts.2 leaves)) := rfl

theorem exists_takeApart (closed : ix.openRetrievals = 0) (plain : t.isQuantifierFree = true)
    (bare : Variable → List α × List α → Index α) (tree : Nat → List α × List α → Index α) :
    ∃ count ix', ix.takeApart t c condition bare tree = .ok (count, ix') := by
  have either (found : List α) (made : Index α) :
      ∃ count ix', (if found.isEmpty then pure (0, ix) else pure (found.length, made) :
        Checked (Nat × Index α)) = .ok (count, ix') := by
    split
    · exact ⟨_, _, rfl⟩
    · exact ⟨_, _, rfl⟩
  rw [takeApart, requireClosed, closed]
  rcases Subterm.head_cases plain with ⟨v, head⟩ | ⟨s, head⟩
  · rw [asVariable_of_head_eq_var head]
    exact either _ _
  · obtain ⟨found, looked⟩ := exists_treeObjects ix c head plain
    rw [asVariable_of_head_eq_symbol head, looked]
    exact either _ _

/-! ## Histories -/

theorem bucket_create (n place : Nat) :
    bucket (⟨Array.replicate n .empty, [], 0, 0⟩ : Index α) place = .empty := by
  rw [bucket, Array.getD_eq_getD_getElem?, Array.getElem?_replicate]
  split <;> rfl

/-- The index is shaped and stores just these entries. -/
structure Holds (ix : Index α) (es : List (Entry α)) : Prop where
  shaped : ix.Shaped
  contents : ix.contents = Entry.contents es
  size_eq : ix.size = es.length

theorem Holds.reopen {es : List (Entry α)} (holds : ix.Holds es) (openRetrievals : Nat) :
    Holds { ix with openRetrievals } es :=
  ⟨holds.shaped.reopen openRetrievals, holds.contents, holds.size_eq⟩

theorem create_holds {n : Nat} (positive : 0 < n) :
    ∃ ix : Index α, create n = .ok ix ∧ ix.Holds [] ∧ ix.openRetrievals = 0 := by
  refine ⟨⟨Array.replicate n .empty, [], 0, 0⟩, ?_,
    ⟨⟨?_, fun place => ?_, ?_, .nil, ?_⟩, ?_, rfl⟩, rfl⟩
  · rw [create, decide_eq_true positive]
    rfl
  · simpa using positive
  · rw [bucket_create]
    exact .empty
  · intro place n hn
    rw [bucket_create] at hn
    exact absurd hn List.not_mem_nil
  · exact fun entry h => absurd h List.not_mem_nil
  · funext ⟨spelling, c⟩
    unfold contents
    split
    · rfl
    · rw [bucket_create]
      exact congrArg (fun leaves => (List.lookup c leaves).getD []) (Node.leavesAt_nil spelling)
    · rfl

/-- What one change does to an index. -/
theorem Holds.perform {es : List (Entry α)} (holds : ix.Holds es) {change : Change α}
    {answer : Option Nat} (done : change.perform ix = .ok (answer, ix')) :
    ix'.Holds (Entry.change es change) ∧ answer = ((Entry.contents es).change change).1 ∧
      ix'.openRetrievals = 0 ∧ (answer = some 0 → ix' = ix) := by
  have sized := holds.size_eq
  cases change with
  | insert t c object =>
      obtain ⟨made, inserted, answered⟩ := bind_eq_ok_iff.1 done
      cases answered
      obtain ⟨closed, shown⟩ := insert_shows holds.shaped inserted
      rw [holds.contents] at shown
      refine ⟨⟨shown.shaped, ?_, ?_⟩, rfl, shown.openRetrievals_eq.trans closed, fun h => nomatch h⟩
      · rw [shown.contents, Entry.contents_change]
        rfl
      · rw [shown.size_eq, Entry.change, List.length_append, ← sized]
        rfl
  | erase t c condition =>
      obtain ⟨⟨count, made⟩, erased, answered⟩ := bind_eq_ok_iff.1 done
      cases answered
      obtain ⟨closed, counted, shown, unchanged⟩ := erase_shows holds.shaped erased
      rw [holds.contents] at counted shown
      refine ⟨⟨shown.shaped, ?_, ?_⟩, congrArg some counted, shown.openRetrievals_eq.trans closed,
        fun zero => unchanged (Option.some.inj zero)⟩
      · rw [shown.contents, Entry.contents_change]
        rfl
      · rw [shown.size_eq, Entry.length_change_erase, ← sized, ← counted]
  | relocate t c target condition =>
      obtain ⟨⟨count, made⟩, relocated, answered⟩ := bind_eq_ok_iff.1 done
      cases answered
      obtain ⟨closed, counted, shown, unchanged⟩ := relocate_shows holds.shaped relocated
      rw [holds.contents] at counted shown
      refine ⟨⟨shown.shaped, ?_, ?_⟩, congrArg some counted, shown.openRetrievals_eq.trans closed,
        fun zero => unchanged (Option.some.inj zero)⟩
      · rw [shown.contents, Entry.contents_change]
        rfl
      · rw [shown.size_eq, Entry.length_change_relocate, ← sized]

theorem exists_perform (closed : ix.openRetrievals = 0) {change : Change α}
    (plain : change.term.isQuantifierFree = true) :
    ∃ answer ix', change.perform ix = .ok (answer, ix') := by
  cases change with
  | insert t c object =>
      obtain ⟨made, inserted⟩ := exists_insert c object closed plain
      exact ⟨none, made, bind_eq_ok_iff.2 ⟨made, inserted, rfl⟩⟩
  | erase t c condition =>
      obtain ⟨count, made, erased⟩ : ∃ count made, ix.erase t c condition = .ok (count, made) := by
        rw [erase_eq_takeApart]
        exact exists_takeApart closed plain _ _
      exact ⟨some count, made, bind_eq_ok_iff.2 ⟨(count, made), erased, rfl⟩⟩
  | relocate t c target condition =>
      obtain ⟨count, made, relocated⟩ :
          ∃ count made, ix.relocate t c target condition = .ok (count, made) := by
        rw [relocate_eq_takeApart]
        exact exists_takeApart closed plain _ _
      exact ⟨some count, made, bind_eq_ok_iff.2 ⟨(count, made), relocated, rfl⟩⟩

/-- What a whole history does to an index. -/
theorem Holds.changeAll {es : List (Entry α)} (holds : ix.Holds es) (closed : ix.openRetrievals = 0)
    {changes : List (Change α)} {answers : List (Option Nat)}
    (done : changeAll changes ix = .ok (answers, ix')) :
    ix'.Holds (changes.foldl Entry.change es) ∧
      answers = (Contents.changeAll changes (Entry.contents es)).1 ∧ ix'.openRetrievals = 0 := by
  induction changes generalizing ix es answers with
  | nil =>
      cases done
      exact ⟨holds, rfl, closed⟩
  | cons change rest ih =>
      obtain ⟨⟨answer, mid⟩, first, done⟩ := bind_eq_ok_iff.1 done
      obtain ⟨⟨later, last⟩, others, done⟩ := bind_eq_ok_iff.1 done
      cases done
      obtain ⟨holdsMid, answered, closedMid, -⟩ := holds.perform first
      obtain ⟨holdsLast, answeredLater, closedLast⟩ := ih holdsMid closedMid others
      refine ⟨holdsLast, ?_, closedLast⟩
      rw [answered, answeredLater, Entry.contents_change]
      rfl

/-- An index that was made and then changed holds its record. -/
theorem holds_record {n : Nat} {start : Index α} {changes : List (Change α)}
    {answers : List (Option Nat)} (created : create n = .ok start)
    (reached : Index.changeAll changes start = .ok (answers, ix)) :
    ix.Holds (Entry.record changes) := by
  obtain ⟨_, positive, -⟩ := bind_eq_ok_iff.1 created
  rw [require_eq_ok_iff, decide_eq_true_eq] at positive
  obtain ⟨made, created', holds, closed⟩ := create_holds (α := α) positive
  obtain rfl : made = start := Except.ok.inj (created'.symm.trans created)
  exact (holds.changeAll closed reached).1

theorem exists_changeAll {es : List (Entry α)} (holds : ix.Holds es)
    (closed : ix.openRetrievals = 0) {changes : List (Change α)}
    (plain : ∀ change ∈ changes, change.term.isQuantifierFree = true) :
    ∃ answers ix', changeAll changes ix = .ok (answers, ix') := by
  induction changes generalizing ix es with
  | nil => exact ⟨[], ix, rfl⟩
  | cons change rest ih =>
      obtain ⟨answer, mid, first⟩ := exists_perform closed (plain change List.mem_cons_self)
      obtain ⟨holdsMid, -, closedMid, -⟩ := holds.perform first
      obtain ⟨answers, last, others⟩ :=
        ih holdsMid closedMid fun change h => plain change (List.mem_cons_of_mem _ h)
      exact ⟨answer :: answers, last,
        bind_eq_ok_iff.2 ⟨_, first, bind_eq_ok_iff.2 ⟨_, others, rfl⟩⟩⟩

theorem exists_reached {n : Nat} (positive : 0 < n) {changes : List (Change α)}
    (plain : ∀ change ∈ changes, change.term.isQuantifierFree = true) :
    ∃ start answers ix, create n = .ok start ∧
      Index.changeAll changes start = .ok (answers, ix) := by
  obtain ⟨start, created, holds, closed⟩ := create_holds (α := α) positive
  obtain ⟨answers, ix, done⟩ := exists_changeAll holds closed plain
  exact ⟨start, answers, ix, created, done⟩

/-- What is found in an index under the keys of terms without binders, and how much
there is in all. -/
structure Refines (ix : Index α) (m : Contents α) : Prop where
  objects_eq : ∀ t c, t.isQuantifierFree = true → ix.objects t c = .ok (m ⟨t.spelling, c⟩)
  count_eq : ∀ t c, t.isQuantifierFree = true → ix.count t c = .ok (m ⟨t.spelling, c⟩).length
  finite : (Function.support fun k => (m k).length).Finite
  size_eq : ix.size = m.total
  isEmpty_iff : ix.isEmpty = true ↔ m.total = 0

theorem Holds.refines {es : List (Entry α)} (holds : ix.Holds es) :
    ix.Refines (Entry.contents es) := by
  have found (t : Subterm) (c : Cluster) (plain : t.isQuantifierFree = true) :
      ix.objects t c = .ok (Entry.contents es ⟨t.spelling, c⟩) := by
    rw [objects_eq plain, holds.contents]
  have sized : ix.size = (Entry.contents es).total := by
    rw [holds.size_eq, Entry.total_contents]
  refine ⟨found, fun t c plain => ?_, Entry.finite_contents es, sized, ?_⟩
  · rw [count_eq, found t c plain]
    rfl
  · rw [isEmpty, beq_iff_eq, sized]

/-- From a new index on, every history on terms without binders runs through and
answers as the contents do, and the index then refines the contents. Of one more change
this says in particular that nothing changes under keys it does not address, and that
the index stays as it is when no object meets the condition. -/
theorem changeAll_refines {n : Nat} (positive : 0 < n) {changes : List (Change α)}
    (plain : ∀ change ∈ changes, change.term.isQuantifierFree = true) :
    ∃ start ix, create n = .ok start ∧
      Index.changeAll changes start = .ok ((Contents.changeAll changes .empty).1, ix) ∧
      ix.Refines (Contents.changeAll changes .empty).2 ∧
      ∀ change : Change α, change.term.isQuantifierFree = true →
        ∃ ix', change.perform ix =
            .ok (((Contents.changeAll changes .empty).2.change change).1, ix') ∧
          ix'.Refines ((Contents.changeAll changes .empty).2.change change).2 ∧
          (∀ t c, t.isQuantifierFree = true → ⟨t.spelling, c⟩ ∉ change.addresses →
            ix'.objects t c = ix.objects t c) ∧
          (((Contents.changeAll changes .empty).2.change change).1 = some 0 → ix' = ix) := by
  obtain ⟨start, created, holds, closed⟩ := create_holds (α := α) positive
  obtain ⟨answers, ix, done⟩ := exists_changeAll holds closed plain
  obtain ⟨holdsNow, answered, closedNow⟩ := holds.changeAll closed done
  have same : Entry.contents (changes.foldl Entry.change []) =
      (Contents.changeAll changes .empty).2 := Entry.contents_foldl_change [] changes
  refine ⟨start, ix, created, ?_, same ▸ holdsNow.refines, fun change plainNext => ?_⟩
  · rw [done, answered]
    rfl
  · obtain ⟨answer, ix', performed⟩ := exists_perform closedNow plainNext
    obtain ⟨holdsNext, answeredNext, -, unchanged⟩ := holdsNow.perform performed
    rw [same] at answeredNext
    have refined := holdsNext.refines
    rw [Entry.contents_change, same] at refined
    refine ⟨ix', by rw [performed, answeredNext], refined, fun t c plainKey outside => ?_, ?_⟩
    · rw [refined.objects_eq t c plainKey, Contents.change_of_not_mem _ outside, ← same,
        holdsNow.refines.objects_eq t c plainKey]
    · rw [← answeredNext]
      exact unchanged

/-- Two terms in two buckets: one object is moved to another cluster and not found under
the first one any more. -/
theorem changeAll_refines_two_buckets :
    ∃ (t : Subterm) (start ix : Index Nat),
      Subterm.ofSpelling [.symbol ⟨20, .function, 1⟩, .var ⟨0, 0⟩] = .ok t ∧ create 2 = .ok start ∧
      changeAll [.insert t (.singleton 1) 7, .insert (.ofVariable ⟨0, 0⟩) .empty 8,
          .relocate t (.singleton 1) .empty fun _ => true, .erase t (.singleton 1) fun _ => true]
        start = .ok ([none, none, some 1, some 0], ix) := by
  obtain ⟨t, made, spelled⟩ :
      ∃ t, Subterm.ofSpelling [.symbol ⟨20, .function, 1⟩, .var ⟨0, 0⟩] = .ok t ∧
        t.spelling = [.symbol ⟨20, .function, 1⟩, .var ⟨0, 0⟩] :=
    ⟨_, rfl, rfl⟩
  have plain : t.isQuantifierFree = true := by
    rw [Subterm.isQuantifierFree, spelled]
    rfl
  have plainAll : ∀ change ∈ [Change.insert t (.singleton 1) 7,
      .insert (.ofVariable ⟨0, 0⟩) .empty 8, .relocate t (.singleton 1) .empty fun _ => true,
      .erase t (.singleton 1) fun _ => true],
      change.term.isQuantifierFree = true := by
    simp only [List.forall_mem_cons]
    exact ⟨plain, rfl, plain, plain, by simp⟩
  obtain ⟨start, ix, created, done, -⟩ := changeAll_refines (n := 2) (by decide) plainAll
  refine ⟨t, start, ix, made, created, done.trans ?_⟩
  simp only [Contents.changeAll, Contents.change, spelled]
  rfl

end Index

end SaturationCore
