/-
# A search finds what unifies

A query is put to the roots of all trees when it reads as a variable, and else to those
of the bucket of its first symbol. Either way the search owes all that is listed in the
index and matches the query: the trees of other buckets start with other symbols, and a
bucket whose summary does not admit the cluster holds nothing of it.

Read against the record of the index, the objects owed are those of the entries of the
cluster whose terms unify with the query, each once. As a search gives out what it owes,
that is what it finds, with a most general unifier in the ledger every time and the first
ledger in the end.
-/
import SaturationCore.Proofs.Retrieval.Search

namespace SaturationCore

variable {α : Type} {σ τ : Unifier} {query : Subterm} {path : List Head} {c : Cluster}
  {v : Variable} {s : Symbol}

/-! ## The roots of a search -/

theorem Bucket.Shaped.heldAll_rootsFor {b : Bucket α} (shaped : b.Shaped) :
    Node.heldAll c (b.rootsFor c) = Node.heldAll c b.roots := by
  rw [rootsFor]
  split
  · rfl
  · rename_i refused
    symm
    rw [Node.heldAll, List.eq_nil_iff_forall_not_mem]
    intro e he
    obtain ⟨n, hn, he⟩ := Node.mem_heldAll_iff.1 he
    refine refused ?_
    rw [shaped.summed]
    exact Summary.admits_merge (List.mem_map_of_mem hn)
      ((shaped.forest.grown n hn).admits_of_mem_held he)

theorem Bucket.mem_roots_of_mem_rootsFor {b : Bucket α} {n : Node α} (hn : n ∈ b.rootsFor c) :
    n ∈ b.roots := by
  rw [rootsFor] at hn
  split at hn
  · exact hn
  · exact absurd hn List.not_mem_nil

namespace Listing

variable {l l' : Listing α}

theorem matching_flatMap {β : Type} (f : β → Listing α) (xs : List β) :
    matching σ query path (xs.flatMap f) = xs.flatMap fun x => matching σ query path (f x) := by
  induction xs with
  | nil => rfl
  | cons x xs ih => rw [List.flatMap_cons, matching_append, ih, List.flatMap_cons]

open Classical in
theorem matching_start : matching σ query [] l = l.filter fun e => Matches σ query e.1 := by
  rw [matching]
  exact congrArg _ (List.map_id l)

theorem matching_perm (same : l.Perm l') :
    (matching σ query [] l).Perm (matching σ query [] l') := by
  rw [matching_start, matching_start]
  exact same.filter _

end Listing

namespace Index

variable {ix : Index α}

theorem toList_buckets (ix : Index α) :
    ix.buckets.toList = (List.range ix.buckets.size).map ix.bucket := by
  apply List.ext_getElem
  · rw [List.length_map, List.length_range, Array.length_toList]
  · intro place inside _
    rw [Array.length_toList] at inside
    rw [List.getElem_map, List.getElem_range, bucket, Array.getD_eq_getD_getElem?,
      Array.getElem?_eq_getElem inside]
    rfl

/-- A query that reads as a variable is put to all trees. -/
theorem Shaped.heldAll_allRoots (shaped : ix.Shaped) :
    Node.heldAll c (ix.buckets.toList.flatMap (·.rootsFor c)) = ix.treeListing c := by
  rw [Node.heldAll_eq_flatMap, List.flatMap_assoc, toList_buckets, List.flatMap_map, treeListing]
  congr 1
  funext place
  rw [← Node.heldAll_eq_flatMap, (shaped.bucket place).heldAll_rootsFor]

/-- The other buckets hold nothing that matches a query that starts with a symbol. -/
theorem Shaped.matching_treeListing (shaped : ix.Shaped) (head : (σ.deref query).head = .symbol s) :
    (ix.treeListing c).matching σ query [] =
      (Node.heldAll c (ix.bucket (s.id % ix.buckets.size)).roots).matching σ query [] := by
  rw [treeListing, Listing.matching_flatMap,
    flatMap_range_of_single (Nat.mod_lt s.id shaped.bucketed)]
  intro place other
  apply Listing.matching_eq_nil
  rintro e he ⟨θ, hθ, same⟩
  obtain ⟨s', rest, spelled, here⟩ := shaped.spelling_of_mem_heldAll he
  rw [List.nil_append, spelled, ← Unifier.instantiate_deref hθ query,
    (σ.deref query).spelling_eq, head] at same
  obtain ⟨first, -⟩ := List.cons.inj same
  rw [← here, Head.symbol.inj first] at other
  exact other rfl

end Index

/-! ## Putting a query -/

namespace Retrieval

variable {ix : Index α} {r : Retrieval α}

/-- Giving up what the search is doing leads back to a ledger: it is a new search, and
this is the ledger, or it is an open one that has left only extensions of it behind. -/
def Rewinds (r : Retrieval α) (τ σ : Unifier) : Prop :=
  (r = idle ∧ τ = σ) ∨ (r.isOpen = true ∧ ∀ ix, r.finish ix τ = .ok (idle, r.release ix, σ))

theorem Rewinds.reset_eq (rewinds : r.Rewinds τ σ) (plain : query.isQuantifierFree = true)
    {roots : List (Node α)} (below : rootsBelow (r.release ix) c (σ.deref query).head = .ok roots) :
    r.reset ix query c τ =
      .ok (asking (r.release ix) query c σ roots,
        { r.release ix with openRetrievals := (r.release ix).openRetrievals + 1 }, σ) := by
  refine bind_eq_ok_iff.2 ⟨(), require_eq_ok_iff.2 plain, ?_⟩
  rcases rewinds with ⟨rfl, rfl⟩ | ⟨isOpen, finished⟩
  · exact bind_eq_ok_iff.2 ⟨_, rfl, bind_eq_ok_iff.2 ⟨roots, below, rfl⟩⟩
  · dsimp only
    rw [if_pos isOpen, finished]
    exact bind_eq_ok_iff.2 ⟨_, rfl, bind_eq_ok_iff.2 ⟨roots, below, rfl⟩⟩

/-- The roots that a query is put to have among them all that it can find in trees. -/
theorem exists_roots (shaped : ix.Shaped) (quantifierFree : σ.QuantifierFree)
    (plain : query.isQuantifierFree = true) (c : Cluster) :
    ∃ roots, rootsBelow ix c (σ.deref query).head = .ok roots ∧
      Branches 1 [.ofSubterm query] σ roots ∧
      (Node.heldAll c roots).matching σ query [] = (ix.treeListing c).matching σ query [] := by
  have root (place : Nat) {n : Node α} (hn : n ∈ (ix.bucket place).rootsFor c) :
      Node.Grown 1 n ∧ ∃ parent, n.test = .between parent n.summary := by
    have shapedHere := shaped.bucket place
    have hn := Bucket.mem_roots_of_mem_rootsFor hn
    exact ⟨shapedHere.forest.grown n hn, _, shapedHere.tested n hn⟩
  have bare := plain_deref quantifierFree (Subterm.isQuantifierFree_iff.1 plain)
  rcases Subterm.head_cases bare with ⟨v, head⟩ | ⟨s, head⟩
  · refine ⟨ix.buckets.toList.flatMap (·.rootsFor c), by rw [head]; rfl, ?_, by
      rw [shaped.heldAll_allRoots]⟩
    have everyRoot {n : Node α} (hn : n ∈ ix.buckets.toList.flatMap (·.rootsFor c)) :
        Node.Grown 1 n ∧ ∃ parent, n.test = .between parent n.summary := by
      obtain ⟨b, hb, hn⟩ := List.mem_flatMap.1 hn
      rw [Index.toList_buckets] at hb
      obtain ⟨place, -, rfl⟩ := List.mem_map.1 hb
      exact root place hn
    refine ⟨fun n hn => (everyRoot hn).1, fun n hn => (everyRoot hn).2, ?_⟩
    rintro ⟨q, next, rigid⟩
    rw [Frames.peek_ofSubterm] at next
    cases next
    rw [head] at rigid
    cases rigid
  · refine ⟨(ix.bucket (s.id % ix.buckets.size)).rootsFor c, by rw [head]; rfl,
      ⟨fun n hn => (root _ hn).1, fun n hn => (root _ hn).2, fun _ => ?_⟩, ?_⟩
    · rw [Bucket.rootsFor]
      split
      · exact (shaped.bucket _).forest.arranged
      · exact .nil
    · rw [shaped.matching_treeListing head, (shaped.bucket _).heldAll_rootsFor]

theorem asking_awaits {roots : List (Node α)} (acyclic : σ.Acyclic)
    (quantifierFree : σ.QuantifierFree) (plain : query.isQuantifierFree = true)
    (branches : Branches 1 [.ofSubterm query] σ roots)
    (covers : (Node.heldAll c roots).matching σ query [] = (ix.treeListing c).matching σ query []) :
    Awaits σ query (asking ix query c σ roots) σ ((ix.listing c).matching σ query []) := by
  have bare := Subterm.isQuantifierFree_iff.1 plain
  have spelled := Frames.remaining_ofSubterm query
  have tracks : Tracks σ query [] 1 [.ofSubterm query] .compare σ := by
    refine ⟨Ledger.Extends.refl σ, acyclic, quantifierFree, Frames.sound_ofSubterm query,
      spelled ▸ bare, .nil, ?_⟩
    rw [spelled]
    exact ⟨Agrees.start σ query, query.spells⟩
  have asked : Asked σ query (asking ix query c σ roots) :=
    ⟨acyclic, quantifierFree, plain, rfl, rfl, rfl⟩
  have none : ([] : List α) ≠ [] → Found σ query [] σ := fun some => absurd rfl some
  have awaits := Awaits.tree asked rfl (.level tracks branches (Ledger.Extends.refl σ) .nil)
    (Ledger.Extends.refl σ) none
  rw [Index.listing, Listing.matching_append, ← covers]
  rwa [List.append_nil] at awaits

/-- Putting a query leaves the ledger as it was when nothing was sought, and everything
owed that matches. -/
theorem Rewinds.reset_awaits (rewinds : r.Rewinds τ σ) (shaped : ix.Shaped) (acyclic : σ.Acyclic)
    (quantifierFree : σ.QuantifierFree) (plain : query.isQuantifierFree = true) (c : Cluster) :
    ∃ asked, r.reset ix query c τ =
        .ok (asked, { r.release ix with openRetrievals := (r.release ix).openRetrievals + 1 }, σ) ∧
      Awaits σ query asked σ ((ix.listing c).matching σ query []) := by
  have same : (r.release ix).Shaped ∧ (r.release ix).listing c = ix.listing c := by
    rw [release]
    split
    · exact ⟨shaped.reopen _, rfl⟩
    · exact ⟨shaped, rfl⟩
  obtain ⟨roots, below, branches, covers⟩ := exists_roots same.1 quantifierFree plain c
  refine ⟨_, rewinds.reset_eq plain below, ?_⟩
  rw [← same.2]
  exact asking_awaits acyclic quantifierFree plain branches covers

end Retrieval

/-! ## Against the record -/

/-- The entries of a cluster whose terms unify with a query. -/
def Entry.answers (σ : Unifier) (query : Subterm) (c : Cluster) (es : List (Entry α)) :
    List (Entry α) :=
  es.filter fun e => e.cluster = c && (σ.unify e.term query).isSome

theorem Found.mostGeneral {t : Subterm} (found : Found σ query t.spelling τ)
    (plain : t.isQuantifierFree = true) : σ.MostGeneral t query τ := by
  obtain ⟨ρ, hρ, reads⟩ := found.acyclic.exists_reading
  refine ⟨found.extended, found.acyclic, found.solves_iff, Unifier.apply_of_read_eq found.acyclic
    (found.quantifierFree.readsPlain found.acyclic plain) ?_⟩
  rw [← reads, ← reads]
  exact ((found.solves_iff ρ).1 hρ).2

/-- What an index lists and a query matches are the entries that answer it. -/
theorem Index.Holds.exists_answers {ix : Index α} {es : List (Entry α)} (holds : ix.Holds es)
    (acyclic : σ.Acyclic) (quantifierFree : σ.QuantifierFree)
    (plain : query.isQuantifierFree = true) (c : Cluster) :
    ∃ matched : List (Entry α), matched.Perm (Entry.answers σ query c es) ∧
      (ix.listing c).matching σ query [] = matched.map fun e => (e.term.spelling, e.object) := by
  classical
  have perm : ((ix.listing c).matching σ query []).Perm
      ((Entry.answers σ query c es).map fun e => (e.term.spelling, e.object)) := by
    refine (Listing.matching_perm (holds.listing_perm c)).trans (.of_eq ?_)
    rw [Listing.matching_start, List.filter_map, List.filter_filter, Entry.answers]
    apply congrArg (List.map _)
    apply List.filter_congr
    intro e he
    rw [Bool.and_comm, Bool.eq_iff_iff, Bool.and_eq_true, Bool.and_eq_true]
    refine and_congr_right fun _ => ?_
    rw [Unifier.unify_isSome_iff acyclic quantifierFree (holds.quantifierFree he) plain]
    exact decide_eq_true_iff
  obtain ⟨matched, same, order⟩ := (congrFun (congrFun (List.eq_map_comp_perm _) _) _).mpr perm
  exact ⟨matched, order, same⟩

variable {ix : Index α} {r : Retrieval α} {es : List (Entry α)}

namespace Retrieval

/-- A run that has come to its end with fewer calls ends so with more. -/
theorem drain_eq_of_length_lt {limit more : Nat} {found : List (α × Unifier)} {last : Retrieval α}
    {υ : Unifier} (drained : r.drain σ limit = .ok (found, last, υ)) (few : found.length < limit)
    (le : limit ≤ more) : r.drain σ more = .ok (found, last, υ) := by
  induction limit generalizing r σ found more with
  | zero => exact absurd few (Nat.not_lt_zero _)
  | succ limit ih =>
      obtain ⟨more, rfl⟩ : ∃ k, more = k + 1 := ⟨more - 1, by omega⟩
      rw [drain] at drained ⊢
      obtain ⟨⟨object, r', τ⟩, given, drained⟩ := bind_eq_ok_iff.1 drained
      refine bind_eq_ok_iff.2 ⟨_, given, ?_⟩
      cases object with
      | none => exact drained
      | some object =>
          obtain ⟨⟨others, last', τ'⟩, drained, result⟩ := bind_eq_ok_iff.1 drained
          cases result
          exact bind_eq_ok_iff.2 ⟨_,
            ih drained (Nat.lt_of_succ_lt_succ few) (Nat.le_of_succ_le_succ le), rfl⟩

/-- A query that was put has its answers coming. -/
theorem Rewinds.reset_answers (rewinds : r.Rewinds τ σ) (holds : ix.Holds es) (acyclic : σ.Acyclic)
    (quantifierFree : σ.QuantifierFree) (plain : query.isQuantifierFree = true) (c : Cluster) :
    ∃ (asked : Retrieval α) (matched : List (Entry α)), r.reset ix query c τ =
        .ok (asked, { r.release ix with openRetrievals := (r.release ix).openRetrievals + 1 }, σ) ∧
      matched.Perm (Entry.answers σ query c es) ∧
      (∀ e ∈ matched, e.term.isQuantifierFree = true) ∧
      Awaits σ query asked σ (matched.map fun e => (e.term.spelling, e.object)) := by
  obtain ⟨asked, put, awaits⟩ := rewinds.reset_awaits holds.shaped acyclic quantifierFree plain c
  obtain ⟨matched, perm, owed⟩ := holds.exists_answers acyclic quantifierFree plain c
  refine ⟨asked, matched, put, perm, fun e he => ?_, owed ▸ awaits⟩
  exact holds.quantifierFree (List.mem_filter.1 (perm.subset he)).1

end Retrieval

/-- Some calls give out as many of the answers, each with a most general unifier in the
ledger; only a run to the end gives out fewer than it was called for. -/
theorem Awaits.drain_answers {matched : List (Entry α)}
    (awaits : Awaits σ query r τ (matched.map fun e => (e.term.spelling, e.object)))
    (plain : ∀ e ∈ matched, e.term.isQuantifierFree = true) (calls : Nat) :
    ∃ found cur υ, r.drain τ calls = .ok (found, cur, υ) ∧
      List.Forall₂ (fun e f => f.1 = e.object ∧ σ.MostGeneral e.term query f.2)
        (matched.take calls) found ∧
      (found.length < calls → cur.phase = .done ∧ υ = σ) ∧ cur.isOpen = true ∧
      ∀ ix, cur.finish ix υ = .ok (.idle, cur.release ix, σ) := by
  obtain ⟨found, cur, υ, drained, each, awaits', ended⟩ := awaits.drain calls
  rw [← List.map_take, List.forall₂_map_left_iff] at each
  refine ⟨found, cur, υ, drained, ?_, fun few => ended ?_, awaits'.asked.isOpen, awaits'.finish⟩
  · refine List.forall₂_iff_zip.2 ⟨each.length_eq, fun {e f} h => ?_⟩
    obtain ⟨object, here⟩ := (List.forall₂_iff_zip.1 each).2 h
    exact ⟨object, here.mostGeneral (plain e (List.mem_of_mem_take (List.of_mem_zip h).1))⟩
  · have taken := each.length_eq
    rw [List.length_take] at taken
    rw [List.length_map]
    omega

namespace Retrieval

/-- Letting go of an index undoes holding it open. -/
theorem release_held (isOpen : r.isOpen = true) (ix : Index α) :
    r.release { ix with openRetrievals := ix.openRetrievals + 1 } = ix := by
  rw [release, if_pos isOpen]
  rfl

/-! ## The main results -/

section Reached

variable {n : Nat} {start : Index α} {changes : List (Change α)} {answers : List (Option Nat)}

/-- Put to an index with any history, under any ledger without cycles and binders, a query
finds just the objects of the entries under its cluster whose terms unify with it, each
once. No call fails, and the last one finds the search done and the ledger as it was. -/
theorem finds_exactly (created : Index.create n = .ok start)
    (reached : Index.changeAll changes start = .ok (answers, ix)) (opened : Nat)
    (rewinds : r.Rewinds τ σ) (acyclic : σ.Acyclic) (quantifierFree : σ.QuantifierFree)
    (plain : query.isQuantifierFree = true) (c : Cluster) :
    ∃ asked held found last,
      r.reset { ix with openRetrievals := opened } query c τ = .ok (asked, held, σ) ∧
      (∀ calls, found.length < calls → asked.drain σ calls = .ok (found, last, σ)) ∧
      last.phase = .done ∧
      (found.map (·.1)).Perm
        ((Entry.answers σ query c (Entry.record changes)).map (·.object)) := by
  have holds := (Index.holds_record created reached).reopen opened
  obtain ⟨asked, matched, put, perm, plainTerms, awaits⟩ :=
    rewinds.reset_answers holds acyclic quantifierFree plain c
  obtain ⟨found, last, υ, drained, each, ended, -, -⟩ :=
    awaits.drain_answers plainTerms (matched.length + 1)
  rw [List.take_of_length_le (Nat.le_succ _)] at each
  have few : found.length < matched.length + 1 := by
    rw [← each.length_eq]
    exact Nat.lt_succ_self _
  obtain ⟨done, rfl⟩ := ended few
  refine ⟨asked, _, found, last, put, fun calls more => ?_, done, ?_⟩
  · refine drain_eq_of_length_lt drained few ?_
    rw [each.length_eq]
    exact more
  · have objects : found.map (·.1) = matched.map (·.object) := by
      symm
      rw [← List.forall₂_eq_eq_eq, List.forall₂_map_left_iff, List.forall₂_map_right_iff]
      exact each.imp fun _ _ h => h.1.symm
    rw [objects]
    exact perm.map _

/-- Of four objects two answer `f(Y0)` while `Y0` is `a`: that of `f(X0)` and that of a bare
variable, but not that of `f(b)` and not that of another cluster. -/
theorem finds_exactly_under_binding :
    ∃ (fx fb query a : Subterm) (start ix : Index Nat) (answers : List (Option Nat))
      (asked last : Retrieval Nat) (held : Index Nat) (found : List (Nat × Unifier)),
      Subterm.ofSpelling [.symbol ⟨20, .function, 1⟩, .var ⟨0, 0⟩] = .ok fx ∧
      Subterm.ofSpelling [.symbol ⟨20, .function, 1⟩, .symbol ⟨21, .constant, 0⟩] = .ok fb ∧
      Subterm.ofSpelling [.symbol ⟨20, .function, 1⟩, .var ⟨1, 0⟩] = .ok query ∧
      Subterm.ofSpelling [.symbol ⟨22, .constant, 0⟩] = .ok a ∧
      Index.create 2 = .ok start ∧
      Index.changeAll [.insert fx (.singleton 1) 7, .insert fb (.singleton 1) 9,
        .insert fx .empty 6, .insert (.ofVariable ⟨0, 1⟩) (.singleton 1) 8] start =
          .ok (answers, ix) ∧
      idle.reset { ix with openRetrievals := 1 } query (.singleton 1) (Ledger.empty.push ⟨1, 0⟩ a) =
        .ok (asked, held, Ledger.empty.push ⟨1, 0⟩ a) ∧
      asked.drain (Ledger.empty.push ⟨1, 0⟩ a) 3 = .ok (found, last, Ledger.empty.push ⟨1, 0⟩ a) ∧
      (found.map (·.1)).Perm [7, 8] := by
  obtain ⟨fx, madeFx⟩ : ∃ t, Subterm.ofSpelling
      [.symbol ⟨20, .function, 1⟩, .var ⟨0, 0⟩] = .ok t := ⟨_, rfl⟩
  obtain ⟨fb, madeFb⟩ : ∃ t, Subterm.ofSpelling
      [.symbol ⟨20, .function, 1⟩, .symbol ⟨21, .constant, 0⟩] = .ok t := ⟨_, rfl⟩
  obtain ⟨query, asks⟩ : ∃ t, Subterm.ofSpelling
      [.symbol ⟨20, .function, 1⟩, .var ⟨1, 0⟩] = .ok t := ⟨_, rfl⟩
  obtain ⟨a, madeA⟩ : ∃ t, Subterm.ofSpelling [.symbol ⟨22, .constant, 0⟩] = .ok t := ⟨_, rfl⟩
  have plainFx : fx.isQuantifierFree = true := by cases madeFx; rfl
  have plainFb : fb.isQuantifierFree = true := by cases madeFb; rfl
  have plainQuery : query.isQuantifierFree = true := by cases asks; rfl
  have plain : ∀ change ∈ [Change.insert fx (.singleton 1) 7, .insert fb (.singleton 1) 9,
      .insert fx .empty 6, .insert (.ofVariable ⟨0, 1⟩) (.singleton 1) 8],
      change.term.isQuantifierFree = true := by
    simp only [List.forall_mem_cons]
    exact ⟨plainFx, plainFb, plainFx, rfl, by simp⟩
  obtain ⟨start, answers, ix, created, reached⟩ := Index.exists_reached (n := 2) (by decide) plain
  have acyclic : Unifier.Acyclic (Ledger.empty.push ⟨1, 0⟩ a) :=
    Unifier.acyclic_empty.push rfl (by cases madeA; decide)
  have quantifierFree : Unifier.QuantifierFree (Ledger.empty.push ⟨1, 0⟩ a) :=
    Unifier.quantifierFree_empty.push (by cases madeA; rfl)
  obtain ⟨asked, held, found, last, put, drained, -, perm⟩ := finds_exactly created reached 1
    (.inl ⟨rfl, rfl⟩) acyclic quantifierFree plainQuery (.singleton 1)
  have two : (Entry.answers (Ledger.empty.push ⟨1, 0⟩ a) query (.singleton 1)
      (Entry.record [.insert fx (.singleton 1) 7, .insert fb (.singleton 1) 9, .insert fx .empty 6,
        .insert (.ofVariable ⟨0, 1⟩) (.singleton 1) 8])).map (·.object) = [7, 8] := by
    cases madeFx
    cases madeFb
    cases asks
    cases madeA
    decide +kernel
  rw [two] at perm
  refine ⟨fx, fb, query, a, start, ix, answers, asked, last, held, found, madeFx, madeFb, asks,
    madeA, created, reached, put, drained 3 ?_, perm⟩
  rw [← List.length_map, perm.length_eq]
  exact Nat.lt_succ_self _

/-- However many calls are made, every object comes with the ledger extended by no more
and no less than what its term and the query need to read the same. When no object comes,
and when the search is given up at any time, the ledger is what it was before. -/
theorem finds_most_general (created : Index.create n = .ok start)
    (reached : Index.changeAll changes start = .ok (answers, ix)) (opened : Nat)
    (rewinds : r.Rewinds τ σ) (acyclic : σ.Acyclic) (quantifierFree : σ.QuantifierFree)
    (plain : query.isQuantifierFree = true) (c : Cluster) :
    ∃ (asked : Retrieval α) (held : Index α) (matched : List (Entry α)),
      r.reset { ix with openRetrievals := opened } query c τ = .ok (asked, held, σ) ∧
      matched.Perm (Entry.answers σ query c (Entry.record changes)) ∧
      ∀ calls, ∃ found cur υ, asked.drain σ calls = .ok (found, cur, υ) ∧
        List.Forall₂ (fun e f => f.1 = e.object ∧ σ.MostGeneral e.term query f.2)
          (matched.take calls) found ∧
        (found.length < calls → cur.phase = .done ∧ υ = σ) ∧ cur.Rewinds υ σ ∧
        cur.finish held υ = .ok (idle, r.release { ix with openRetrievals := opened }, σ) := by
  have holds := (Index.holds_record created reached).reopen opened
  obtain ⟨asked, matched, put, perm, plainTerms, awaits⟩ :=
    rewinds.reset_answers holds acyclic quantifierFree plain c
  refine ⟨asked, _, matched, put, perm, fun calls => ?_⟩
  obtain ⟨found, cur, υ, drained, each, ended, isOpen, finished⟩ :=
    awaits.drain_answers plainTerms calls
  refine ⟨found, cur, υ, drained, each, ended, .inr ⟨isOpen, finished⟩, ?_⟩
  rw [finished, release_held isOpen]

/-- Called once, a search for `f(Y0)` leaves the unifier of `f(X0)` behind, and given up it
leaves nothing. -/
theorem finds_most_general_then_finishes :
    ∃ (fx query : Subterm) (start ix : Index Nat) (answers : List (Option Nat))
      (asked cur : Retrieval Nat) (held : Index Nat) (found : List (Nat × Unifier)) (υ : Unifier),
      Subterm.ofSpelling [.symbol ⟨20, .function, 1⟩, .var ⟨0, 0⟩] = .ok fx ∧
      Subterm.ofSpelling [.symbol ⟨20, .function, 1⟩, .var ⟨1, 0⟩] = .ok query ∧
      Index.create 2 = .ok start ∧
      Index.changeAll [.insert fx .empty 7, .insert fx .empty 9, .erase fx .empty (· == 9)] start =
        .ok (answers, ix) ∧
      idle.reset { ix with openRetrievals := 0 } query .empty Ledger.empty =
        .ok (asked, held, Ledger.empty) ∧
      asked.drain Ledger.empty 1 = .ok (found, cur, υ) ∧
      List.Forall₂ (fun (e : Entry Nat) (f : Nat × Unifier) =>
          f.1 = e.object ∧ Unifier.MostGeneral Ledger.empty e.term query f.2)
        [⟨fx, .empty, 7⟩] found ∧
      cur.finish held υ = .ok (idle, { ix with openRetrievals := 0 }, Ledger.empty) := by
  obtain ⟨fx, madeFx⟩ : ∃ t, Subterm.ofSpelling
      [.symbol ⟨20, .function, 1⟩, .var ⟨0, 0⟩] = .ok t := ⟨_, rfl⟩
  obtain ⟨query, asks⟩ : ∃ t, Subterm.ofSpelling
      [.symbol ⟨20, .function, 1⟩, .var ⟨1, 0⟩] = .ok t := ⟨_, rfl⟩
  have plainFx : fx.isQuantifierFree = true := by cases madeFx; rfl
  have plainQuery : query.isQuantifierFree = true := by cases asks; rfl
  have plain : ∀ change ∈ [Change.insert fx .empty 7, .insert fx .empty 9,
      .erase fx .empty (· == 9)], change.term.isQuantifierFree = true := by
    simp only [List.forall_mem_cons]
    exact ⟨plainFx, plainFx, plainFx, by simp⟩
  obtain ⟨start, answers, ix, created, reached⟩ := Index.exists_reached (n := 2) (by decide) plain
  obtain ⟨asked, held, matched, put, perm, run⟩ := finds_most_general created reached 0
    (.inl ⟨rfl, rfl⟩) Unifier.acyclic_empty Unifier.quantifierFree_empty plainQuery .empty
  have one : Entry.answers Ledger.empty query .empty
      (Entry.record [.insert fx .empty 7, .insert fx .empty 9, .erase fx .empty (· == 9)]) =
        [⟨fx, .empty, 7⟩] := by
    cases madeFx
    cases asks
    rfl
  rw [one, List.perm_singleton] at perm
  subst perm
  obtain ⟨found, cur, υ, drained, each, -, -, finished⟩ := run 1
  exact ⟨fx, query, start, ix, answers, asked, cur, held, found, υ, madeFx, asks, created, reached,
    put, drained, each, finished⟩

end Reached

end Retrieval

/-- A search of an index lists its answers, and it stops after the last one: there are no
more of them than entries. -/
theorem Index.Holds.search_finds (holds : ix.Holds es) (acyclic : σ.Acyclic)
    (quantifierFree : σ.QuantifierFree) (plain : query.isQuantifierFree = true) (c : Cluster) :
    ∃ found matched, ix.search query c σ = .ok (found, σ) ∧
      matched.Perm (Entry.answers σ query c es) ∧
      List.Forall₂ (fun (e : Entry α) f => f.1 = e.object ∧ σ.MostGeneral e.term query f.2)
        matched found := by
  obtain ⟨asked, matched, put, perm, plainTerms, awaits⟩ :=
    Retrieval.Rewinds.reset_answers (.inl ⟨rfl, rfl⟩) holds acyclic quantifierFree plain c
  obtain ⟨found, cur, υ, drained, each, -, -, finished⟩ :=
    awaits.drain_answers plainTerms (ix.size + 1)
  have fits : matched.length ≤ ix.size := by
    rw [perm.length_eq, holds.size_eq]
    exact List.length_filter_le _ _
  rw [List.take_of_length_le (Nat.le_succ_of_le fits)] at each
  refine ⟨found, matched, ?_, perm, each⟩
  exact bind_eq_ok_iff.2 ⟨_, put, bind_eq_ok_iff.2 ⟨_, drained,
    bind_eq_ok_iff.2 ⟨_, finished _, rfl⟩⟩⟩

end SaturationCore
