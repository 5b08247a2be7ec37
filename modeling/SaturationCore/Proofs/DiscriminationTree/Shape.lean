/-
# The shape of an index

An index spreads what it stores over the trees of its buckets and the list of bare
variables. Both are kept in a fixed shape: a forest in every bucket, under whose roots
only terms of that bucket are spelled, and tidy stores of bare variables. An index of
that shape is read as a function from keys to lists of objects, which is what its own
look-ups answer.

Changing the store of one variable, or the leaves at the end of one spelling, keeps
the shape and changes what is read there and nowhere else.
-/
import SaturationCore.Proofs.DiscriminationTree.Forest
import SaturationCore.Proofs.DiscriminationTree.History

namespace SaturationCore

variable {α : Type}

namespace Node

theorem mem_settle {n m : Node α} {siblings : List (Node α)} (h : m ∈ settle n siblings) :
    m = n ∨ m ∈ siblings := by
  rw [settle] at h
  split at h
  · exact .inr (List.mem_filter.1 h).1
  · exact mem_place h

end Node

namespace Bucket

variable {b : Bucket α} {hs : List Head}
  {change : List (Cluster × List α) → List (Cluster × List α)}

/-- The roots of a bucket are a forest that the bucket's summary belongs to. -/
structure Shaped (b : Bucket α) : Prop where
  forest : Node.Forest 1 b.roots
  summed : b.summary = .merge (b.roots.map (·.summary))
  tested : Node.Tested b.summary b.roots

theorem Shaped.empty : (Bucket.empty : Bucket α).Shaped :=
  ⟨.nil 1, rfl, fun _ h => absurd h List.not_mem_nil⟩

theorem Shaped.alter (shaped : b.Shaped)
    (keeps : ∀ leaves, Association.Tidy leaves → Association.Tidy (change leaves))
    (spells : Spells 1 hs) (plain : ∀ h ∈ hs, h.isBinder = false) : (b.alter change hs).Shaped := by
  have forest := shaped.forest.alterPath keeps spells plain
  refine ⟨forest.map_retest, ?_, Node.tested_map_retest⟩
  have same (s : Summary) (roots : List (Node α)) :
      (roots.map (Node.retest s)).map Node.summary = roots.map Node.summary := by
    rw [List.map_map]
    exact List.map_congr_left fun _ _ => Node.summary_retest
  exact congrArg Summary.merge (same _ _).symm

theorem leavesAt_alter (nonempty : hs ≠ []) (other : List Head) :
    Node.leavesAt other (b.alter change hs).roots =
      if other = hs then change (Node.leavesAt hs b.roots) else Node.leavesAt other b.roots := by
  show Node.leavesAt other (List.map _ _) = _
  rw [Node.leavesAt_map_retest, Node.leavesAt_alterPath nonempty]

theorem head_of_mem_roots_alter {h : Head} {rest : List Head} {n : Node α}
    (hn : n ∈ (b.alter change (h :: rest)).roots) :
    n.head = h ∨ ∃ m ∈ b.roots, n.head = m.head := by
  obtain ⟨m, hm, rfl⟩ := List.mem_map.1 hn
  rw [Node.alterPath_cons] at hm
  rw [Node.head_retest]
  rcases Node.mem_settle hm with rfl | hm
  · exact .inl Node.head_altered
  · exact .inr ⟨m, hm, rfl⟩

end Bucket

namespace Index

variable {ix : Index α} {t : Subterm} {c : Cluster} {v : Variable} {s : Symbol}

/-- The buckets are shaped and hold only terms that belong into them, and the stores
of bare variables are tidy. -/
structure Shaped (ix : Index α) : Prop where
  bucketed : 0 < ix.buckets.size
  bucket : ∀ place, (ix.bucket place).Shaped
  rooted : ∀ place, ∀ n ∈ (ix.bucket place).roots, ix.bucketOf n.head = .ok place
  clusters : Association.Tidy ix.bareVariables
  bare : ∀ entry ∈ ix.bareVariables, Association.Tidy entry.2

/-- What is stored under each key. -/
def contents (ix : Index α) : Contents α := fun k =>
  match k.spelling with
  | [.var v] => ix.variableObjects v k.cluster
  | .symbol s :: _ =>
    ((Node.leavesAt k.spelling (ix.bucket (s.id % ix.buckets.size)).roots).lookup k.cluster).getD []
  | _ => []

/-- The objects stored under a term and a cluster, as the index finds them. -/
def objects (ix : Index α) (t : Subterm) (c : Cluster) : Checked (List α) :=
  match t.asVariable with
  | some v => return ix.variableObjects v c
  | none => return (← ix.treeObjects t c).2

theorem count_eq (ix : Index α) (t : Subterm) (c : Cluster) :
    ix.count t c = (do return (← ix.objects t c).length) := by
  rw [count, objects]
  cases t.asVariable with
  | some v => rfl
  | none => cases ix.treeObjects t c <;> rfl

/-! ## Looking up -/

theorem contents_of_head_eq_var (h : t.head = .var v) :
    ix.contents ⟨t.spelling, c⟩ = ix.variableObjects v c := by
  rw [Subterm.spelling_of_head_eq_var h]
  rfl

theorem contents_of_head_eq_symbol (h : t.head = .symbol s) :
    ix.contents ⟨t.spelling, c⟩ =
      ((Node.leavesAt t.spelling (ix.bucket (s.id % ix.buckets.size)).roots).lookup c).getD [] := by
  have spelled := t.spelling_eq
  rw [h] at spelled
  rw [spelled]
  rfl

/-- What is found in the trees is stored under the key. -/
theorem of_treeObjects {place : Nat} {found : List α}
    (h : ix.treeObjects t c = .ok (place, found)) :
    ∃ s, t.head = .symbol s ∧ place = s.id % ix.buckets.size ∧
      found = ix.contents ⟨t.spelling, c⟩ := by
  rw [treeObjects] at h
  cases head : t.head with
  | var v =>
      rw [head] at h
      cases h
  | binder v =>
      rw [head] at h
      cases h
  | symbol s =>
      rw [head] at h
      refine ⟨s, rfl, ?_⟩
      rw [contents_of_head_eq_symbol head]
      simp only [bucketOf, bind, Except.bind] at h
      cases located : Node.locate? t.spelling (ix.bucket (s.id % ix.buckets.size)).roots with
      | error fault =>
          rw [located] at h
          cases h
      | ok node =>
          rw [located] at h
          rw [← Node.leaves_of_locate? located]
          cases node with
          | none =>
              cases h
              exact ⟨rfl, rfl⟩
          | some n =>
              cases h
              exact ⟨rfl, rfl⟩

theorem exists_treeObjects (ix : Index α) (c : Cluster) (h : t.head = .symbol s)
    (plain : t.isQuantifierFree = true) :
    ∃ found, ix.treeObjects t c = .ok (s.id % ix.buckets.size, found) := by
  have bare := Subterm.isQuantifierFree_iff.1 plain
  obtain ⟨node, located⟩ :=
    Node.exists_locate? bare (ix.bucket (s.id % ix.buckets.size)).roots
  rw [treeObjects, h]
  simp only [bucketOf, bind, Except.bind, located]
  cases node with
  | none => exact ⟨_, rfl⟩
  | some n => exact ⟨_, rfl⟩

theorem asVariable_of_head_eq_var (h : t.head = .var v) : t.asVariable = some v :=
  Subterm.asVariable_eq_some.2 h

theorem asVariable_of_head_eq_symbol (h : t.head = .symbol s) : t.asVariable = none := by
  rw [Subterm.asVariable, h]
  rfl

theorem objects_eq (plain : t.isQuantifierFree = true) :
    ix.objects t c = .ok (ix.contents ⟨t.spelling, c⟩) := by
  rw [objects]
  rcases Subterm.head_cases plain with ⟨v, head⟩ | ⟨s, head⟩
  · rw [asVariable_of_head_eq_var head, contents_of_head_eq_var head]
    rfl
  · obtain ⟨found, looked⟩ := exists_treeObjects ix c head plain
    obtain ⟨-, -, -, same⟩ := of_treeObjects looked
    rw [asVariable_of_head_eq_symbol head, looked, same]
    rfl

/-! ## Changing the store of bare variables -/

theorem Shaped.distinct_bare (shaped : ix.Shaped) (c : Cluster) :
    (((ix.bareVariables.lookup c).getD []).map (·.1)).Nodup := by
  cases found : ix.bareVariables.lookup c with
  | none => exact List.nodup_nil
  | some entries =>
      obtain ⟨front, back, split, -⟩ := List.lookup_eq_some_iff.1 found
      refine (shaped.bare (c, entries) ?_).distinct
      rw [split]
      exact List.mem_append_right front List.mem_cons_self

theorem variableObjects_alterVariable (shaped : ix.Shaped) (u : Variable) (d : Cluster)
    (change : Option (List α) → Option (List α)) :
    (ix.alterVariable v c change).variableObjects u d =
      if u = v ∧ d = c then (change (((ix.bareVariables.lookup c).getD []).lookup v)).getD []
      else ix.variableObjects u d := by
  have inner := shaped.distinct_bare c
  rw [variableObjects, alterVariable, Association.lookup_alter c d _ shaped.clusters.distinct]
  by_cases cluster : d = c
  · subst cluster
    rw [if_pos rfl]
    have looked := Association.lookup_alter v u change inner
    generalize Association.alter v change ((ix.bareVariables.lookup d).getD []) = changed at looked
    have same : ((if changed.isEmpty then none else some changed).getD []) = changed := by
      cases changed <;> rfl
    rw [same, looked, variableObjects]
    by_cases here : u = v
    · rw [if_pos here, if_pos ⟨here, rfl⟩]
    · rw [if_neg here, if_neg fun both => here both.1]
  · rw [if_neg cluster, if_neg fun both => cluster both.2, variableObjects]

theorem Shaped.alterVariable (shaped : ix.Shaped) {change : Option (List α) → Option (List α)}
    (filled : ∀ old, change old ≠ some []) : (ix.alterVariable v c change).Shaped := by
  refine ⟨shaped.bucketed, shaped.bucket, shaped.rooted, ?_, fun entry h => ?_⟩
  · refine shaped.clusters.alter fun old made => ?_
    dsimp only at made
    split at made
    · cases made
    · rename_i some
      exact some (List.isEmpty_iff.2 (Option.some.inj made))
  · rcases Association.mem_alter h with h | ⟨-, old, inside, made⟩
    · exact shaped.bare entry h
    · have before : Association.Tidy (old.getD []) := by
        cases old with
        | none => exact .nil
        | some entries => exact shaped.bare (c, entries) (inside entries rfl)
      dsimp only at made
      split at made
      · cases made
      · rw [← Option.some.inj made]
        exact before.alter filled

theorem contents_alterVariable (shaped : ix.Shaped) (change : Option (List α) → Option (List α)) :
    (ix.alterVariable v c change).contents =
      Function.update ix.contents ⟨[.var v], c⟩
        ((change (((ix.bareVariables.lookup c).getD []).lookup v)).getD []) := by
  funext ⟨spelling, d⟩
  by_cases here : (⟨spelling, d⟩ : Key) = ⟨[.var v], c⟩
  · obtain ⟨rfl, rfl⟩ := Key.mk.inj here
    rw [Function.update_self]
    exact (variableObjects_alterVariable shaped v d change).trans (if_pos ⟨rfl, rfl⟩)
  · rw [Function.update_of_ne here]
    unfold contents
    split
    · rename_i u spelled
      rw [variableObjects_alterVariable shaped]
      refine if_neg fun ⟨same, sameCluster⟩ => here ?_
      rw [← same, ← sameCluster]
      exact congrArg (Key.mk · d) spelled
    · rfl
    · rfl

/-! ## Changing the trees -/

theorem bucket_alterTree (place : Nat) (hs : List Head) (other : Nat)
    (change : List (Cluster × List α) → List (Cluster × List α)) (h : place < ix.buckets.size) :
    (ix.alterTree place hs change).bucket other =
      if other = place then (ix.bucket place).alter change hs else ix.bucket other := by
  rw [bucket, alterTree, Array.getD_eq_getD_getElem?, Array.getElem?_modify]
  by_cases same : other = place
  · subst same
    rw [if_pos rfl, if_pos rfl, bucket, Array.getD_eq_getD_getElem?, Array.getElem?_eq_getElem h]
    rfl
  · rw [if_neg (Ne.symm same), if_neg same, bucket, Array.getD_eq_getD_getElem?]

theorem size_buckets_alterTree (place : Nat) (hs : List Head)
    (change : List (Cluster × List α) → List (Cluster × List α)) :
    (ix.alterTree place hs change).buckets.size = ix.buckets.size :=
  Array.size_modify

variable {change : List (Cluster × List α) → List (Cluster × List α)}

theorem Shaped.alterTree (shaped : ix.Shaped) (head : t.head = .symbol s)
    (plain : ∀ h ∈ t.spelling, h.isBinder = false)
    (keeps : ∀ leaves, Association.Tidy leaves → Association.Tidy (change leaves)) :
    (ix.alterTree (s.id % ix.buckets.size) t.spelling change).Shaped := by
  have inside : s.id % ix.buckets.size < ix.buckets.size := Nat.mod_lt _ shaped.bucketed
  refine ⟨?_, fun place => ?_, fun place n hn => ?_, shaped.clusters, shaped.bare⟩
  · rw [size_buckets_alterTree]
    exact shaped.bucketed
  · rw [bucket_alterTree _ _ _ _ inside]
    split
    · exact (shaped.bucket _).alter keeps t.spells plain
    · exact shaped.bucket place
  · rw [bucket_alterTree _ _ _ _ inside] at hn
    have unmoved : ∀ h, (ix.alterTree (s.id % ix.buckets.size) t.spelling change).bucketOf h =
        ix.bucketOf h := by
      intro h
      cases h with
      | symbol s => rw [bucketOf, bucketOf, size_buckets_alterTree]
      | var v => rfl
      | binder v => rfl
    rw [unmoved]
    split at hn
    · rename_i here
      rw [t.spelling_eq] at hn
      rcases Bucket.head_of_mem_roots_alter hn with root | ⟨m, hm, same⟩
      · rw [root, head, here]
        rfl
      · rw [same, here]
        exact shaped.rooted _ m hm
    · exact shaped.rooted place n hn

theorem contents_alterTree (shaped : ix.Shaped) (head : t.head = .symbol s) (k : Key) :
    (ix.alterTree (s.id % ix.buckets.size) t.spelling change).contents k =
      if k.spelling = t.spelling then
        ((change (Node.leavesAt t.spelling (ix.bucket (s.id % ix.buckets.size)).roots)).lookup
          k.cluster).getD []
      else ix.contents k := by
  have inside : s.id % ix.buckets.size < ix.buckets.size := Nat.mod_lt _ shaped.bucketed
  have spelled := t.spelling_eq
  rw [head] at spelled
  have nonempty : t.spelling ≠ [] := by
    rw [spelled]
    exact List.cons_ne_nil _ _
  obtain ⟨spelling, d⟩ := k
  by_cases here : spelling = t.spelling
  · subst here
    rw [if_pos rfl, contents_of_head_eq_symbol head, size_buckets_alterTree,
      bucket_alterTree _ _ _ _ inside, if_pos rfl, Bucket.leavesAt_alter nonempty, if_pos rfl]
  · rw [if_neg here]
    unfold contents
    split
    · rfl
    · rw [size_buckets_alterTree, bucket_alterTree _ _ _ _ inside]
      split
      · rename_i same
        rw [Bucket.leavesAt_alter nonempty, if_neg here, same]
      · rfl
    · rfl

end Index

end SaturationCore
