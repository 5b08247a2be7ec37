/-
# Trees are canonical

Whatever the history of an index, on every level of its trees siblings ascend, a node has
either children or leaves, its summary is that of the clusters of leaves below it, and its
test is what its parent's summary leaves to be tested.

This fixes a tree by what is stored in it. A head stands on a level just when something is
stored behind it, so the levels of two trees with the same objects under the same keys have
the same heads, and as they ascend, in the same order. Summaries and tests follow from the
leaves. Only the clusters at one leaf may stand in another order.
-/
import SaturationCore.Proofs.DiscriminationTree.Refinement
import SaturationCore.Proofs.DiscriminationTree.Summary

namespace SaturationCore

variable {α : Type}

namespace Node

variable {m : Nat} {n n' : Node α} {siblings siblings' : List (Node α)} {h : Head}
  {parent : Summary}

/-- What holds of every node below a parent with a given summary. -/
structure Kept (parent : Summary) (n : Node α) : Prop where
  either : n.children ≠ [] ∧ n.leaves = [] ∨ n.children = [] ∧ n.leaves ≠ []
  tidy : Association.Tidy n.leaves
  sums : n.summary.Sums n.clusters
  tested : n.test = .between parent n.summary

theorem Grown.sums (grown : Grown m n) : n.summary.Sums n.clusters := by
  rw [grown.summary_eq]
  exact Summary.sums_merge _

theorem Grown.kept (grown : Grown m n) (tested : n.test = .between parent n.summary) :
    n.Kept parent := by
  refine ⟨?_, ?_, grown.sums, tested⟩
  · cases grown with
    | leaf _ _ filled => exact .inr ⟨rfl, filled⟩
    | inner _ filled => exact .inl ⟨filled, rfl⟩
  · cases grown with
    | leaf _ _ _ tidy => exact tidy
    | inner => exact .nil

/-- The children of a node are a forest, and tested against the node's summary. -/
theorem Grown.level (grown : Grown m n) : (∃ k, Forest k n.children) ∧
    Tested n.summary n.children := by
  cases grown with
  | leaf => exact ⟨⟨0, .nil 0⟩, nofun⟩
  | inner _ _ _ arranged tested grown => exact ⟨⟨_, arranged, grown⟩, tested⟩

/-! ## The heads of a level -/

/-- The leaves that further heads lead to from a node. -/
def leavesBehind (n : Node α) (rest : List Head) : List (Cluster × List α) :=
  if rest.isEmpty then n.leaves else leavesAt rest n.children

/-- The same objects are stored under the same keys. -/
def SameLeaves (siblings siblings' : List (Node α)) : Prop :=
  ∀ hs c, ((leavesAt hs siblings).lookup c).getD [] = ((leavesAt hs siblings').lookup c).getD []

theorem Arranged.child_of_mem (arranged : Arranged siblings) (hn : n ∈ siblings) :
    child n.head siblings = n := by
  induction siblings with
  | nil => exact absurd hn List.not_mem_nil
  | cons first rest ih =>
      obtain ⟨before, arranged⟩ := List.pairwise_cons.1 arranged
      rw [child_cons]
      rcases List.mem_cons.1 hn with rfl | hn
      · exact if_pos rfl
      · rw [if_neg, ih arranged hn]
        intro same
        have order := before n hn
        rw [same, Head.order_eq_iff.2 rfl] at order
        cases order

theorem child_of_not_mem (absent : h ∉ siblings.map head) : child h siblings = fresh h := by
  rw [child]
  cases found : find? h siblings with
  | none => rfl
  | some n =>
      obtain ⟨hn, rfl⟩ := mem_of_find? found
      exact absurd (List.mem_map_of_mem hn) absent

/-- Something is stored behind every node of a forest. -/
theorem Grown.exists_stored (grown : Grown m n) :
    ∃ rest c, ((n.leavesBehind rest).lookup c).getD [] ≠ [] := by
  induction grown with
  | @leaf h test leaves _ _ filled tidy =>
      obtain ⟨⟨c, objects⟩, first⟩ := List.exists_mem_of_ne_nil leaves filled
      refine ⟨[], c, ?_⟩
      show (leaves.lookup c).getD [] ≠ []
      rw [(Association.lookup_eq_some_iff tidy.distinct).2 first]
      exact tidy.filled _ first
  | @inner m h summary test children _ filled _ arranged _ _ ih =>
      obtain ⟨k, hk⟩ := List.exists_mem_of_ne_nil children filled
      obtain ⟨rest, c, stored⟩ := ih k hk
      refine ⟨k.head :: rest, c, ?_⟩
      show ((leavesAt (k.head :: rest) children).lookup c).getD [] ≠ []
      rw [leavesAt_cons, arranged.child_of_mem hk]
      exact stored

/-- A head stands on a level just when something is stored behind it. -/
theorem Forest.mem_heads_iff (forest : Forest m siblings) :
    h ∈ siblings.map head ↔
      ∃ rest c, ((leavesAt (h :: rest) siblings).lookup c).getD [] ≠ [] := by
  constructor
  · intro there
    obtain ⟨n, hn, rfl⟩ := List.mem_map.1 there
    obtain ⟨rest, c, stored⟩ := (forest.grown n hn).exists_stored
    refine ⟨rest, c, ?_⟩
    rw [leavesAt_cons, forest.arranged.child_of_mem hn]
    exact stored
  · rintro ⟨rest, c, stored⟩
    by_contra absent
    rw [leavesAt_cons, child_of_not_mem absent] at stored
    refine stored ?_
    split
    · rfl
    · exact congrArg (fun leaves => (List.lookup c leaves).getD []) (leavesAt_nil rest)

/-- Levels behind which the same is stored have the same heads in the same order. -/
theorem Forest.heads_eq (forest : Forest m siblings) (forest' : Forest m siblings')
    (same : SameLeaves siblings siblings') : siblings.map head = siblings'.map head := by
  have ascending {siblings : List (Node α)} (arranged : Arranged siblings) :
      (siblings.map head).Pairwise fun h k => h.order k = .lt := List.pairwise_map.2 arranged
  have distinct {siblings : List (Node α)} (arranged : Arranged siblings) :
      (siblings.map head).Nodup := by
    refine (ascending arranged).imp fun {h k} order same => ?_
    rw [same, Head.order_eq_iff.2 rfl] at order
    cases order
  have perm : (siblings.map head).Perm (siblings'.map head) := by
    refine (List.perm_ext_iff_of_nodup (distinct forest.arranged)
      (distinct forest'.arranged)).2 fun h => ?_
    rw [forest.mem_heads_iff, forest'.mem_heads_iff]
    exact exists_congr fun rest => exists_congr fun c => by rw [same]
  refine perm.eq_of_pairwise (fun h k _ _ lower upper => ?_) (ascending forest.arranged)
    (ascending forest'.arranged)
  rw [Head.order_gt_iff.2 upper] at lower
  cases lower

/-! ## Trees that are alike -/

/-- The nodes are the same but for the order of clusters at leaves. -/
inductive Alike : Node α → Node α → Prop where
  | mk {h : Head} {summary : Summary} {test : ClusterTest} {leaves leaves' : List (Cluster × List α)}
      {children children' : List (Node α)} :
      Association.Rearranged leaves leaves' → List.Forall₂ Alike children children' →
      Alike (mk h summary test leaves children) (mk h summary test leaves' children')

/-- The nodes are alike but for the test, which depends on the parent. -/
structure AlikeBelow (n n' : Node α) : Prop where
  head_eq : n.head = n'.head
  summary_eq : n.summary = n'.summary
  leaves : Association.Rearranged n.leaves n'.leaves
  children : List.Forall₂ Alike n.children n'.children

theorem AlikeBelow.alike (alike : AlikeBelow n n') (tested : n.test = .between parent n.summary)
    (tested' : n'.test = .between parent n'.summary) : Alike n n' := by
  obtain ⟨h, summary, test, leaves, children⟩ := n
  obtain ⟨h', summary', test', leaves', children'⟩ := n'
  obtain ⟨rfl, rfl, leaves, children⟩ := alike
  obtain rfl : test = test' := tested.trans tested'.symm
  exact .mk leaves children

theorem summaries_eq (alike : List.Forall₂ AlikeBelow siblings siblings') :
    siblings.map summary = siblings'.map summary := by
  induction alike with
  | nil => rfl
  | cons first _ ih => rw [List.map_cons, List.map_cons, first.summary_eq, ih]

/-- Siblings that are alike but for their tests are alike when both are tested against the
summary of the same parent. -/
theorem alike_of_tested (alike : List.Forall₂ AlikeBelow siblings siblings')
    (tested : Tested parent siblings) (tested' : Tested parent siblings') :
    List.Forall₂ Alike siblings siblings' := by
  induction alike with
  | nil => exact .nil
  | cons first _ ih =>
      obtain ⟨here, later⟩ := List.forall_mem_cons.1 tested
      obtain ⟨here', later'⟩ := List.forall_mem_cons.1 tested'
      exact .cons (first.alike here here') (ih later later')

/-- Levels with the same heads are alike when nodes with the same head and the same behind them
are. -/
theorem Forest.forall₂ {p : Node α → Node α → Prop} (forest : Forest m siblings)
    (forest' : Forest m siblings') (same : SameLeaves siblings siblings')
    (each : ∀ n ∈ siblings, ∀ n' ∈ siblings', n.head = n'.head →
      (∀ rest c, ((n.leavesBehind rest).lookup c).getD [] =
        ((n'.leavesBehind rest).lookup c).getD []) → p n n') :
    List.Forall₂ p siblings siblings' := by
  have heads : List.Forall₂ (fun n n' => n.head = n'.head) siblings siblings' := by
    have equal := forest.heads_eq forest' same
    rwa [← List.forall₂_eq_eq_eq, List.forall₂_map_left_iff, List.forall₂_map_right_iff] at equal
  refine List.forall₂_iff_zip.2 ⟨heads.length_eq, fun {n n'} pair => ?_⟩
  have head : n.head = n'.head := (List.forall₂_iff_zip.1 heads).2 pair
  obtain ⟨hn, hn'⟩ := List.of_mem_zip pair
  refine each n hn n' hn' head fun rest c => ?_
  have equal := same (n.head :: rest) c
  rw [leavesAt_cons, leavesAt_cons, forest.arranged.child_of_mem hn, head,
    forest'.arranged.child_of_mem hn'] at equal
  exact equal

theorem Grown.alikeBelow (grown : Grown m n) (grown' : Grown m n') (head : n.head = n'.head)
    (same : ∀ rest c, ((n.leavesBehind rest).lookup c).getD [] =
      ((n'.leavesBehind rest).lookup c).getD []) : AlikeBelow n n' := by
  induction grown generalizing n' with
  | @leaf h test leaves _ constant _ tidy =>
      cases grown' with
      | @leaf h' test' leaves' _ _ _ tidy' =>
          have rearranged : Association.Rearranged leaves leaves' :=
            tidy.rearranged tidy' fun c => same [] c
          refine ⟨head, ?_, rearranged, .nil⟩
          exact Summary.merge_perm (rearranged.perm.map _)
      | @inner _ h' _ _ children' _ filled _ _ _ below =>
          obtain ⟨k, hk⟩ := List.exists_mem_of_ne_nil children' filled
          obtain rfl : h = h' := head
          exact absurd (below k hk).pos (by omega)
  | @inner m h summary test children _ filled summed arranged tested below ih =>
      cases grown' with
      | leaf _ constant =>
          obtain ⟨k, hk⟩ := List.exists_mem_of_ne_nil children filled
          obtain rfl : h = _ := head
          exact absurd (below k hk).pos (by omega)
      | @inner _ h' summary' test' children' _ filled' summed' arranged' tested' below' =>
          obtain rfl : h = h' := head
          have forest : Forest (m + h.arity) children := ⟨arranged, below⟩
          have forest' : Forest (m + h.arity) children' := ⟨arranged', below'⟩
          have sameLeaves : SameLeaves children children' := by
            rintro (_ | ⟨k, rest⟩) c
            · rfl
            · exact same (k :: rest) c
          have alike : List.Forall₂ AlikeBelow children children' :=
            forest.forall₂ forest' sameLeaves fun k hk k' hk' => ih k hk (below' k' hk')
          have sums : summary = summary' := by
            rw [summed, summed', summarise, summarise, if_neg (by simpa using filled),
              if_neg (by simpa using filled'), summaries_eq alike]
          subst sums
          exact ⟨rfl, rfl, ⟨.nil, fun _ => rfl⟩, alike_of_tested alike tested tested'⟩

end Node

namespace Bucket

variable {b b' : Bucket α}

/-- The levels of a bucket's trees, each with the summary of the parent of the nodes on it; for
the roots that is the summary of the bucket. -/
inductive Level (b : Bucket α) : Summary → List (Node α) → Prop where
  | roots : Level b b.summary b.roots
  | children {parent : Summary} {siblings : List (Node α)} {n : Node α} :
      Level b parent siblings → n ∈ siblings → Level b n.summary n.children

/-- On every level siblings ascend and are kept below their parent, and the summary of the
bucket is that of all clusters of leaves in it. -/
structure Canonical (b : Bucket α) : Prop where
  sums : b.summary.Sums (Node.clustersAll b.roots)
  arranged : ∀ parent siblings, b.Level parent siblings → Node.Arranged siblings
  kept : ∀ parent siblings, b.Level parent siblings → ∀ n ∈ siblings, n.Kept parent

theorem Shaped.level (shaped : b.Shaped) {parent : Summary} {siblings : List (Node α)}
    (level : b.Level parent siblings) :
    (∃ m, Node.Forest m siblings) ∧ Node.Tested parent siblings := by
  induction level with
  | roots => exact ⟨⟨1, shaped.forest⟩, shaped.tested⟩
  | children _ hn ih =>
      obtain ⟨⟨m, forest⟩, -⟩ := ih
      exact (forest.grown _ hn).level

theorem Shaped.canonical (shaped : b.Shaped) : b.Canonical where
  sums := by
    rw [shaped.summed, Node.merge_summaries shaped.forest.grown fun n hn =>
      (shaped.forest.grown n hn).summary_eq]
    exact Summary.sums_merge _
  arranged _ _ level := by
    obtain ⟨⟨m, forest⟩, -⟩ := shaped.level level
    exact forest.arranged
  kept _ _ level n hn := by
    obtain ⟨⟨m, forest⟩, tested⟩ := shaped.level level
    exact (forest.grown n hn).kept (tested n hn)

/-- The trees are the same but for the order of clusters at leaves. -/
structure Alike (b b' : Bucket α) : Prop where
  summary_eq : b.summary = b'.summary
  roots : List.Forall₂ Node.Alike b.roots b'.roots

theorem Shaped.alike (shaped : b.Shaped) (shaped' : b'.Shaped)
    (same : Node.SameLeaves b.roots b'.roots) : b.Alike b' := by
  have alike : List.Forall₂ Node.AlikeBelow b.roots b'.roots :=
    shaped.forest.forall₂ shaped'.forest same fun n hn n' hn' =>
      (shaped.forest.grown n hn).alikeBelow (shaped'.forest.grown n' hn')
  have sums : b.summary = b'.summary := by
    rw [shaped.summed, shaped'.summed, Node.summaries_eq alike]
  exact ⟨sums, Node.alike_of_tested alike shaped.tested (sums ▸ shaped'.tested)⟩

end Bucket

namespace Index

variable {ix ix' : Index α}

/-- The buckets have the same trees, but for the order of clusters at leaves. -/
structure Alike (ix ix' : Index α) : Prop where
  size_eq : ix.buckets.size = ix'.buckets.size
  bucket : ∀ place, (ix.bucket place).Alike (ix'.bucket place)

/-- Nothing is stored in a bucket behind a head that belongs elsewhere. -/
theorem Shaped.leavesAt_eq_nil (shaped : ix.Shaped) {place : Nat} {h : Head}
    (elsewhere : ix.bucketOf h ≠ .ok place) (rest : List Head) :
    Node.leavesAt (h :: rest) (ix.bucket place).roots = [] := by
  have absent : h ∉ (ix.bucket place).roots.map Node.head := by
    intro there
    obtain ⟨n, hn, rfl⟩ := List.mem_map.1 there
    exact elsewhere (shaped.rooted place n hn)
  rw [Node.leavesAt_cons, Node.child_of_not_mem absent]
  split
  · rfl
  · exact Node.leavesAt_nil rest

/-- With the same objects under the same keys that are no variables, the trees are alike. -/
theorem Shaped.alike (shaped : ix.Shaped) (shaped' : ix'.Shaped)
    (size : ix.buckets.size = ix'.buckets.size)
    (same : ∀ k : Key, (∀ v, k.spelling ≠ [.var v]) → ix.contents k = ix'.contents k) :
    ix.Alike ix' := by
  refine ⟨size, fun place => (shaped.bucket place).alike (shaped'.bucket place) ?_⟩
  rintro (_ | ⟨h, rest⟩) c
  · rfl
  · have moved : ix.bucketOf h = ix'.bucketOf h := by
      cases h with
      | symbol s => rw [bucketOf, bucketOf, size]
      | var v => rfl
      | binder v => rfl
    by_cases here : ix.bucketOf h = .ok place
    · cases h with
      | symbol s =>
          obtain rfl : s.id % ix.buckets.size = place := Except.ok.inj here
          have equal : ix.contents ⟨.symbol s :: rest, c⟩ = ix'.contents ⟨.symbol s :: rest, c⟩ :=
            same _ (by simp)
          rw [contents, contents, ← size] at equal
          exact equal
      | var v => cases here
      | binder v => cases here
    · rw [shaped.leavesAt_eq_nil here, shaped'.leavesAt_eq_nil (moved ▸ here)]

/-! ## What changes leave alone -/

variable {t : Subterm} {c target : Cluster} {condition : α → Bool} {count : Nat}

/-- The index has as many buckets as another one, and is held open by as many searches. -/
structure SameFrame (ix ix' : Index α) : Prop where
  size_buckets_eq : ix'.buckets.size = ix.buckets.size
  openRetrievals_eq : ix'.openRetrievals = ix.openRetrievals

theorem SameFrame.insert {object : α} (done : ix.insert t c object = .ok ix') :
    ix.SameFrame ix' := by
  obtain ⟨_, -, done⟩ := bind_eq_ok_iff.1 done
  obtain ⟨_, -, done⟩ := bind_eq_ok_iff.1 done
  dsimp only at done
  split at done
  · cases done
    exact ⟨rfl, rfl⟩
  · obtain ⟨place, -, done⟩ := bind_eq_ok_iff.1 done
    cases done
    exact ⟨size_buckets_alterTree _ _ _, rfl⟩

theorem SameFrame.takeApart {bare : Variable → List α × List α → Index α}
    {tree : Nat → List α × List α → Index α} (sameBare : ∀ v parts, ix.SameFrame (bare v parts))
    (sameTree : ∀ place parts, ix.SameFrame (tree place parts))
    (done : ix.takeApart t c condition bare tree = .ok (count, ix')) : ix.SameFrame ix' := by
  obtain ⟨_, -, done⟩ := bind_eq_ok_iff.1 done
  split at done
  · dsimp only at done
    split at done
    · cases done
      exact ⟨rfl, rfl⟩
    · cases done
      exact sameBare _ _
  · obtain ⟨⟨place, objects⟩, -, done⟩ := bind_eq_ok_iff.1 done
    dsimp only at done
    split at done
    · cases done
      exact ⟨rfl, rfl⟩
    · cases done
      exact sameTree _ _

theorem SameFrame.perform {change : Change α} {answer : Option Nat}
    (done : change.perform ix = .ok (answer, ix')) : ix.SameFrame ix' := by
  cases change with
  | insert t c object =>
      obtain ⟨made, inserted, answered⟩ := bind_eq_ok_iff.1 done
      cases answered
      exact .insert inserted
  | erase t c condition =>
      obtain ⟨⟨count, made⟩, erased, answered⟩ := bind_eq_ok_iff.1 done
      cases answered
      rw [erase_eq_takeApart] at erased
      refine SameFrame.takeApart (fun v parts => ?_) (fun place parts => ?_) erased
      · exact ⟨rfl, rfl⟩
      · exact ⟨size_buckets_alterTree _ _ _, rfl⟩
  | relocate t c target condition =>
      obtain ⟨⟨count, made⟩, relocated, answered⟩ := bind_eq_ok_iff.1 done
      cases answered
      rw [relocate_eq_takeApart] at relocated
      refine SameFrame.takeApart (fun v parts => ?_) (fun place parts => ?_) relocated
      · exact ⟨rfl, rfl⟩
      · exact ⟨size_buckets_alterTree _ _ _, rfl⟩

/-- No history changes the number of buckets. -/
theorem size_buckets_changeAll {changes : List (Change α)} {answers : List (Option Nat)}
    (done : changeAll changes ix = .ok (answers, ix')) : ix'.buckets.size = ix.buckets.size := by
  induction changes generalizing ix answers with
  | nil =>
      cases done
      rfl
  | cons change rest ih =>
      obtain ⟨⟨answer, mid⟩, first, done⟩ := bind_eq_ok_iff.1 done
      obtain ⟨⟨later, last⟩, others, done⟩ := bind_eq_ok_iff.1 done
      cases done
      rw [ih others, (SameFrame.perform first).size_buckets_eq]

end Index

end SaturationCore
