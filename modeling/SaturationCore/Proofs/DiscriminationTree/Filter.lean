/-
# What the tests on the way to a node let through

A node is tested only for what its parent was not tested for: elements that all clusters below
the node have but not all below the parent, and elements that some below the parent have but
none below the node. Along a path these differences add up. A cluster that is admitted to the
bucket passes all tests down to a node just when it has what the leaves below that node have in
common and nothing that none of them has.

Nothing is tested twice on the way, because what was demanded once belongs to every summary
further down, and what was ruled out to none.

Summaries compare the lengths of clusters as well as the elements. Between trimmed clusters this
makes no difference. A cluster with zero words at the end, which only a document can bring in, may
pass all tests and still not be admitted by the summary of the node, as it has more words.
-/
import SaturationCore.Interchange
import SaturationCore.Proofs.DiscriminationTree.Canonical
import SaturationCore.Proofs.DiscriminationTree.Census

namespace SaturationCore

variable {α : Type}

namespace Summary

variable {parent s t : Summary} {c : Cluster} {cs : List Cluster}

/-- The cluster has the elements of the intersection, and no others than those of the union. -/
structure Spans (s : Summary) (c : Cluster) : Prop where
  all : ∀ bit, s.all.contains bit = true → c.contains bit = true
  any : ∀ bit, c.contains bit = true → s.any.contains bit = true

theorem spans_of_admits (h : s.admits c = true) : s.Spans c :=
  have ⟨all, any⟩ := admits_iff.1 h
  ⟨all.2, any.2⟩

/-- Of trimmed clusters, a summary admits those with the right elements. -/
theorem admits_iff_spans (trimmedAll : s.all.Trimmed) (trimmed : c.Trimmed) :
    s.admits c = true ↔ s.Spans c := by
  refine ⟨spans_of_admits, fun spans => admits_iff.2 ⟨?_, ?_⟩⟩
  · exact trimmedAll.below_iff.2 spans.all
  · exact trimmed.below_iff.2 spans.any

theorem Covers.spans (covers : s.Covers t) (spans : t.Spans c) : s.Spans c :=
  ⟨fun bit h => spans.all bit (covers.all.2 bit h), fun bit h => covers.any.2 bit (spans.any bit h)⟩

/-- A summary of trimmed clusters has a trimmed intersection. -/
theorem trimmed_all_merge (trimmed : ∀ c ∈ cs, c.Trimmed) : (merge (cs.map single)).all.Trimmed := by
  cases cs with
  | nil => exact .empty
  | cons c cs =>
      have row (s : Summary) (ss : List Summary) (trimmed : s.all.Trimmed) :
          (ss.foldl join s).all.Trimmed := by
        induction ss generalizing s with
        | nil => exact trimmed
        | cons t ss ih => exact ih _ (.intersection _ _)
      exact row _ _ (trimmed c List.mem_cons_self)

/-- The test at a child adds to what the parent's summary demands what the child's does. -/
theorem passes_between_iff (spans : parent.Spans c) :
    (ClusterTest.between parent s).passes c = true ↔ s.Spans c := by
  show (c.containsAll (s.all.difference parent.all) &&
    c.isDisjoint (parent.any.difference s.any)) = true ↔ _
  rw [Bool.and_eq_true, Cluster.containsAll_iff, (Cluster.Trimmed.difference _ _).below_iff,
    Cluster.isDisjoint_iff]
  simp only [Cluster.contains_difference]
  constructor
  · rintro ⟨set, clear⟩
    refine ⟨fun bit common => ?_, fun bit inside => ?_⟩
    · cases before : parent.all.contains bit with
      | true => exact spans.all bit before
      | false => exact set bit (by rw [common, before]; rfl)
    · have later := clear bit inside
      rwa [spans.any bit inside, Bool.true_and, Bool.not_eq_false'] at later
  · rintro ⟨all, any⟩
    refine ⟨fun bit new => all bit ?_, fun bit inside => ?_⟩
    · rw [Bool.and_eq_true] at new
      exact new.1
    · rw [any bit inside, Bool.not_true, Bool.and_false]

end Summary

namespace ClusterTest

variable {t : ClusterTest}

/-- Nothing is demanded twice, and nothing is ruled out twice. -/
structure Separate (t u : ClusterTest) : Prop where
  set : t.set.isDisjoint u.set = true
  clear : t.clear.isDisjoint u.clear = true

/-- The test demands nothing that the summary demands, and rules out nothing that it rules out. -/
structure FreshAfter (t : ClusterTest) (s : Summary) : Prop where
  set : s.all.isDisjoint t.set = true
  clear : s.any.containsAll t.clear = true

theorem freshAfter_between (parent s : Summary) : (between parent s).FreshAfter parent := by
  constructor
  · rw [Cluster.isDisjoint_iff]
    intro bit before
    show (s.all.difference parent.all).contains bit = false
    rw [Cluster.contains_difference, before, Bool.not_true, Bool.and_false]
  · exact Cluster.containsAll_iff.2 (Cluster.difference_below _ _)

theorem FreshAfter.of_covers {r s : Summary} (fresh : t.FreshAfter s) (covers : r.Covers s) :
    t.FreshAfter r := by
  refine ⟨Cluster.isDisjoint_iff.2 fun bit h => ?_, Cluster.containsAll_iff.2 ?_⟩
  · exact Cluster.isDisjoint_iff.1 fresh.set bit (covers.all.2 bit h)
  · exact (Cluster.containsAll_iff.1 fresh.clear).trans covers.any

/-- What is left to be tested below a child was not tested at the child. -/
theorem FreshAfter.separate {s : Summary} (fresh : t.FreshAfter s) (parent : Summary) :
    (between parent s).Separate t := by
  constructor
  · rw [Cluster.isDisjoint_iff]
    intro bit h
    exact Cluster.isDisjoint_iff.1 fresh.set bit ((Cluster.difference_below _ _).2 bit h)
  · rw [Cluster.isDisjoint_iff]
    intro bit h
    have gone : (parent.any.difference s.any).contains bit = true := h
    rw [Cluster.contains_difference, Bool.and_eq_true, Bool.not_eq_true'] at gone
    rw [← Bool.not_eq_true]
    intro later
    have back := (Cluster.containsAll_iff.1 fresh.clear).2 bit later
    rw [gone.2] at back
    cases back

end ClusterTest

namespace Node

variable {m : Nat} {n last : Node α} {siblings path : List (Node α)} {parent : Summary} {c : Cluster}

/-! ## Along a path -/

/-- The nodes on the way to the last one: the first is among some siblings, each further one
among the children of the one before. -/
inductive Path : List (Node α) → List (Node α) → Node α → Prop where
  | here {siblings : List (Node α)} {n : Node α} : n ∈ siblings → Path siblings [n] n
  | further {siblings path : List (Node α)} {n last : Node α} :
      n ∈ siblings → Path n.children path last → Path siblings (n :: path) last

/-- Siblings below a parent with a given summary, tested for what it leaves open. -/
structure Layer (parent : Summary) (siblings : List (Node α)) : Prop where
  grown : ∃ m, ∀ n ∈ siblings, Grown m n
  covers : ∀ n ∈ siblings, parent.Covers n.summary
  tested : Tested parent siblings

theorem Grown.layer (grown : Grown m n) : Layer n.summary n.children := by
  cases grown with
  | leaf => exact ⟨⟨0, nofun⟩, nofun, nofun⟩
  | inner _ filled summed _ tested grown =>
      refine ⟨⟨_, grown⟩, fun k hk => ?_, tested⟩
      rw [summary, summed, summarise, if_neg (by simpa using filled)]
      exact Summary.covers_merge (List.mem_map_of_mem hk)

theorem Layer.child (layer : Layer parent siblings) (hn : n ∈ siblings) :
    Layer n.summary n.children :=
  have ⟨_, grown⟩ := layer.grown
  (grown n hn).layer

theorem Path.grown (down : Path siblings path last) (layer : Layer parent siblings) :
    ∃ m, Grown m last := by
  induction down generalizing parent with
  | here there =>
      obtain ⟨m, grown⟩ := layer.grown
      exact ⟨m, grown _ there⟩
  | further there _ ih => exact ih (layer.child there)

theorem Path.covers (down : Path siblings path last) (layer : Layer parent siblings) :
    parent.Covers last.summary := by
  induction down generalizing parent with
  | here there => exact layer.covers _ there
  | further there _ ih => exact (layer.covers _ there).trans (ih (layer.child there))

/-- Along a path the tests add up to the summary of the last node. -/
theorem Path.passes_iff (down : Path siblings path last) (layer : Layer parent siblings)
    (spans : parent.Spans c) :
    (path.all fun n => n.test.passes c) = true ↔ last.summary.Spans c := by
  induction down generalizing parent with
  | here there =>
      rw [List.all_cons, List.all_nil, Bool.and_true, layer.tested _ there,
        Summary.passes_between_iff spans]
  | further there down ih =>
      have inner := layer.child there
      rw [List.all_cons, Bool.and_eq_true, layer.tested _ there, Summary.passes_between_iff spans]
      constructor
      · rintro ⟨here, later⟩
        exact (ih inner here).1 later
      · intro reached
        have here := (down.covers inner).spans reached
        exact ⟨here, (ih inner here).2 reached⟩

theorem Path.fresh (down : Path siblings path last) (layer : Layer parent siblings) :
    (∀ n ∈ path, n.test.FreshAfter parent) ∧ path.Pairwise fun k l => k.test.Separate l.test := by
  induction down generalizing parent with
  | here there =>
      refine ⟨List.forall_mem_singleton.2 ?_, List.pairwise_singleton _ _⟩
      rw [layer.tested _ there]
      exact ClusterTest.freshAfter_between _ _
  | @further siblings path n last there down ih =>
      obtain ⟨fresh, separate⟩ := ih (layer.child there)
      refine ⟨List.forall_mem_cons.2 ⟨?_, fun k hk => ?_⟩,
        List.pairwise_cons.2 ⟨fun k hk => ?_, separate⟩⟩
      · rw [layer.tested _ there]
        exact ClusterTest.freshAfter_between _ _
      · exact (fresh k hk).of_covers (layer.covers _ there)
      · rw [layer.tested _ there]
        exact (fresh k hk).separate parent

/-! ## The leaves below a node -/

/-- The cluster has what the clusters of leaves below the node have in common, and nothing that
none of them has. -/
structure Spans (n : Node α) (c : Cluster) : Prop where
  all : ∀ bit, (∀ d ∈ n.clusters, d.contains bit = true) → c.contains bit = true
  any : ∀ bit, c.contains bit = true → ∃ d ∈ n.clusters, d.contains bit = true

theorem Grown.spans_iff (grown : Grown m n) : n.summary.Spans c ↔ n.Spans c := by
  have sums := grown.sums
  constructor
  · rintro ⟨all, any⟩
    refine ⟨fun bit common => all bit ?_, fun bit inside => ?_⟩
    · exact (sums.all_iff bit).2 ⟨grown.clusters_ne_nil, common⟩
    · exact (sums.any_iff bit).1 (any bit inside)
  · rintro ⟨all, any⟩
    refine ⟨fun bit common => all bit ?_, fun bit inside => ?_⟩
    · exact ((sums.all_iff bit).1 common).2
    · exact (sums.any_iff bit).2 (any bit inside)

/-- Something is stored under every cluster of a leaf. -/
theorem Grown.exists_mem_held (grown : Grown m n) (hc : c ∈ n.clusters) : ∃ e, e ∈ held c n := by
  induction grown with
  | @leaf h test leaves _ _ _ tidy =>
      rw [clusters, clustersAll, List.append_nil] at hc
      obtain ⟨⟨_, objects⟩, stored, rfl⟩ := List.mem_map.1 hc
      obtain ⟨object, first⟩ := List.exists_mem_of_ne_nil objects (tidy.filled _ stored)
      rw [held_leaf, (Association.lookup_eq_some_iff tidy.distinct).2 stored]
      exact ⟨_, List.mem_map_of_mem first⟩
  | @inner m h summary test children _ filled _ _ _ _ ih =>
      rw [clusters, List.map_nil, List.nil_append, clustersAll_eq_flatMap, List.mem_flatMap] at hc
      obtain ⟨k, hk, hc⟩ := hc
      obtain ⟨e, he⟩ := ih k hk hc
      rw [held_inner _ _ _ _ filled]
      exact ⟨_, List.mem_map_of_mem (mem_heldAll_iff.2 ⟨k, hk, he⟩)⟩

theorem Path.clusters_subset (down : Path siblings path last) :
    last.clusters ⊆ clustersAll siblings := by
  rw [clustersAll_eq_flatMap]
  induction down with
  | here there => exact fun c hc => List.mem_flatMap.2 ⟨_, there, hc⟩
  | @further siblings path n last there _ ih =>
      intro c hc
      obtain ⟨h, summary, test, leaves, children⟩ := n
      refine List.mem_flatMap.2 ⟨_, there, ?_⟩
      rw [clusters, clustersAll_eq_flatMap]
      exact List.mem_append_right _ (ih hc)

end Node

namespace Bucket

variable {b : Bucket α} {path : List (Node α)} {n : Node α} {c : Cluster}

/-- Whether a cluster is admitted to the bucket and passes the tests of some nodes. -/
def lets (b : Bucket α) (path : List (Node α)) (c : Cluster) : Bool :=
  b.summary.admits c && path.all fun n => n.test.passes c

theorem Shaped.layer (shaped : b.Shaped) : Node.Layer b.summary b.roots := by
  refine ⟨⟨1, shaped.forest.grown⟩, fun n hn => ?_, shaped.tested⟩
  rw [shaped.summed]
  exact Summary.covers_merge (List.mem_map_of_mem hn)

theorem Shaped.lets_iff (shaped : b.Shaped) (down : Node.Path b.roots path n) :
    b.lets path c = true ↔ b.summary.admits c = true ∧ n.Spans c := by
  obtain ⟨m, grown⟩ := down.grown shaped.layer
  rw [lets, Bool.and_eq_true]
  refine and_congr_right fun admitted => ?_
  rw [down.passes_iff shaped.layer (Summary.spans_of_admits admitted), grown.spans_iff]

theorem Shaped.lets_of_admits (shaped : b.Shaped) (down : Node.Path b.roots path n)
    (h : n.summary.admits c = true) : b.lets path c = true := by
  obtain ⟨m, grown⟩ := down.grown shaped.layer
  rw [shaped.lets_iff down]
  exact ⟨(down.covers shaped.layer).admits h, grown.spans_iff.1 (Summary.spans_of_admits h)⟩

theorem Shaped.lets_of_mem (shaped : b.Shaped) (down : Node.Path b.roots path n)
    (hc : c ∈ n.clusters) : b.lets path c = true := by
  obtain ⟨m, grown⟩ := down.grown shaped.layer
  obtain ⟨e, he⟩ := grown.exists_mem_held hc
  exact shaped.lets_of_admits down (grown.admits_of_mem_held he)

end Bucket

namespace Index

variable {start ix : Index α} {es : List (Entry α)} {c : Cluster} {place : Nat}

theorem roots_bucket_of_le (beyond : ix.buckets.size ≤ place) : (ix.bucket place).roots = [] := by
  rw [bucket, Array.getD_eq_getD_getElem?, Array.getElem?_eq_none beyond]
  rfl

/-- A leaf has a cluster only from an entry of the record. -/
theorem Holds.exists_entry (holds : ix.Holds es)
    (hc : c ∈ Node.clustersAll (ix.bucket place).roots) : ∃ e ∈ es, e.cluster = c := by
  have shaped := holds.shaped.bucket place
  rw [Node.clustersAll_eq_flatMap] at hc
  obtain ⟨n, hn, hc⟩ := List.mem_flatMap.1 hc
  obtain ⟨e, he⟩ := (shaped.forest.grown n hn).exists_mem_held hc
  have inside : place < ix.buckets.size := by
    by_contra beyond
    rw [roots_bucket_of_le (Nat.le_of_not_lt beyond)] at hn
    exact absurd hn List.not_mem_nil
  have listed : e ∈ ix.listing c := List.mem_append_left _ (List.mem_flatMap.2
    ⟨place, List.mem_range.2 inside, Node.mem_heldAll_iff.2 ⟨n, hn, he⟩⟩)
  obtain ⟨entry, kept, -⟩ := List.mem_map.1 ((holds.listing_perm c).mem_iff.1 listed)
  obtain ⟨there, same⟩ := List.mem_filter.1 kept
  exact ⟨entry, there, of_decide_eq_true same⟩

/-- Whatever the history of an index, the check at a bucket and the tests down to a node let
through what has the common elements of the leaves below the node and no others than theirs. All
clusters that the node's summary admits are among it, in particular those of the leaves, and there
are no further ones if all clusters are trimmed. No test is made twice. -/
theorem changeAll_filters {buckets : Nat} {changes : List (Change α)} {answers : List (Option Nat)}
    (created : create buckets = .ok start)
    (reached : Index.changeAll changes start = .ok (answers, ix)) {path : List (Node α)}
    {n : Node α} (down : Node.Path (ix.bucket place).roots path n) :
    (∀ c, (ix.bucket place).lets path c = true ↔
      (ix.bucket place).summary.admits c = true ∧ n.Spans c) ∧
    (∀ c, n.summary.admits c = true → (ix.bucket place).lets path c = true) ∧
    (∀ c ∈ n.clusters, (ix.bucket place).lets path c = true) ∧
    ((∀ change ∈ changes, ∀ c ∈ change.target?, c.Trimmed) → ∀ c : Cluster, c.Trimmed →
      ((ix.bucket place).lets path c = true ↔ n.summary.admits c = true) ∧
      (n.summary.admits c = true ↔ n.Spans c)) ∧
    (path.Pairwise fun k l => k.test.Separate l.test) ∧
    ∀ k ∈ path, k.test.FreshAfter (ix.bucket place).summary := by
  have holds := holds_record created reached
  have shaped := holds.shaped.bucket place
  obtain ⟨m, grown⟩ := down.grown shaped.layer
  obtain ⟨fresh, separate⟩ := down.fresh shaped.layer
  refine ⟨fun c => shaped.lets_iff down, fun c => shaped.lets_of_admits down,
    fun c => shaped.lets_of_mem down, fun stored c trimmed => ?_, separate, fresh⟩
  have leaves (d : Cluster) (hd : d ∈ n.clusters) : d.Trimmed := by
    obtain ⟨e, he, rfl⟩ := holds.exists_entry (down.clusters_subset hd)
    exact Entry.cluster_of_mem_foldl nofun stored e he
  have all : n.summary.all.Trimmed := by
    rw [grown.summary_eq]
    exact Summary.trimmed_all_merge leaves
  have spans : n.summary.admits c = true ↔ n.Spans c := by
    rw [Summary.admits_iff_spans all trimmed, grown.spans_iff]
  refine ⟨⟨fun through => ?_, shaped.lets_of_admits down⟩, spans⟩
  exact spans.2 ((shaped.lets_iff down).1 through).2

/-- Two constants below one function, the first stored with the elements 0 and 1, the second with
1 and 65. -/
theorem exists_two_leaves :
    ∃ (s t : Subterm) (start ix : Index Nat) (root leaf : Node Nat),
      create 1 = .ok start ∧
      changeAll [.insert s (.ofList [0, 1]) 7, .insert t (.ofList [1, 65]) 8] start =
        .ok ([none, none], ix) ∧
      Node.Path (ix.bucket 0).roots [root, leaf] leaf ∧
      (ix.bucket 0).summary = ⟨.singleton 1, .ofList [0, 1, 65]⟩ ∧
      leaf.summary = ⟨.ofList [0, 1], .ofList [0, 1]⟩ ∧
      leaf.test = ⟨.singleton 0, .singleton 65⟩ := by
  obtain ⟨s, t, start, ix, root, leaf, -, -, built⟩ :
      ∃ (s t : Subterm) (start ix : Index Nat) (root leaf : Node Nat),
        Subterm.ofSpelling [.symbol ⟨20, .function, 1⟩, .symbol ⟨21, .constant, 0⟩] = .ok s ∧
        Subterm.ofSpelling [.symbol ⟨20, .function, 1⟩, .symbol ⟨22, .constant, 0⟩] = .ok t ∧
        create 1 = .ok start ∧
        changeAll [.insert s (.ofList [0, 1]) 7, .insert t (.ofList [1, 65]) 8] start =
          .ok ([none, none], ix) ∧
        Node.Path (ix.bucket 0).roots [root, leaf] leaf ∧
        (ix.bucket 0).summary = ⟨.singleton 1, .ofList [0, 1, 65]⟩ ∧
        leaf.summary = ⟨.ofList [0, 1], .ofList [0, 1]⟩ ∧
        leaf.test = ⟨.singleton 0, .singleton 65⟩ :=
    ⟨_, _, _, _, _, _, rfl, rfl, rfl, rfl,
      .further List.mem_cons_self (.here List.mem_cons_self), rfl, rfl, rfl⟩
  exact ⟨s, t, start, ix, root, leaf, built⟩

/-- The elements 0 and 65 are tested at the first constant only. -/
theorem changeAll_filters_two_leaves :
    ∃ (s t : Subterm) (start ix : Index Nat) (root leaf : Node Nat),
      create 1 = .ok start ∧
      changeAll [.insert s (.ofList [0, 1]) 7, .insert t (.ofList [1, 65]) 8] start =
        .ok ([none, none], ix) ∧
      Node.Path (ix.bucket 0).roots [root, leaf] leaf ∧
      leaf.test = ⟨.singleton 0, .singleton 65⟩ ∧
      (∀ c : Cluster, c.Trimmed →
        ((ix.bucket 0).lets [root, leaf] c = true ↔ leaf.summary.admits c = true)) ∧
      root.test.Separate leaf.test := by
  obtain ⟨s, t, start, ix, root, leaf, created, reached, down, -, -, test⟩ := exists_two_leaves
  obtain ⟨-, -, -, exact, separate, -⟩ := changeAll_filters created reached down
  have stored : ∀ change ∈ [Change.insert s (.ofList [0, 1]) 7, .insert t (.ofList [1, 65]) 8],
      ∀ c ∈ change.target?, c.Trimmed := by
    simp only [List.forall_mem_cons, Change.target?, Option.mem_some_iff, forall_eq']
    exact ⟨.ofList _, .ofList _, nofun⟩
  exact ⟨s, t, start, ix, root, leaf, created, reached, down, test,
    fun c trimmed => (exact stored c trimmed).1, (List.pairwise_cons.1 separate).1 _ (by simp)⟩

/-- A document may show the elements 0 and 1 with a zero word behind them. The cluster in it passes
the check at the bucket and the tests down to the first constant, where just these elements are
stored, but the summary there does not admit it. -/
theorem changeAll_filters_zero_word :
    ∃ (s t : Subterm) (start ix : Index Nat) (root leaf : Node Nat) (c : Cluster),
      create 1 = .ok start ∧
      changeAll [.insert s (.ofList [0, 1]) 7, .insert t (.ofList [1, 65]) 8] start =
        .ok ([none, none], ix) ∧
      Node.Path (ix.bucket 0).roots [root, leaf] leaf ∧
      Cluster.ofJson? (.record [("words", .list .nat [3, 0])]) = some c ∧
      (ix.bucket 0).lets [root, leaf] c = true ∧ leaf.Spans c ∧
      leaf.summary.admits c = false := by
  obtain ⟨s, t, start, ix, root, leaf, created, reached, down, above, here, -⟩ := exists_two_leaves
  have shaped := (holds_record created reached).shaped.bucket 0
  obtain ⟨m, grown⟩ := down.grown shaped.layer
  have spans : leaf.Spans (.ofWords [3, 0]) := by
    rw [← grown.spans_iff, here]
    exact ⟨fun _ => id, fun _ => id⟩
  refine ⟨s, t, start, ix, root, leaf, .ofWords [3, 0], created, reached, down, rfl, ?_, spans, ?_⟩
  · rw [shaped.lets_iff down, above]
    exact ⟨rfl, spans⟩
  · rw [here]
    rfl

end Index

end SaturationCore
