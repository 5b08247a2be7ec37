/-
# Summing up clusters

Joining summaries is associative and commutative, so groups of clusters can be summed up in
any order and group by group. The summary of a node of a forest is therefore that of all the
clusters of leaves below it: what they have in common, and what they have together.
-/
import SaturationCore.Proofs.Cluster
import SaturationCore.Proofs.DiscriminationTree.Forest

namespace SaturationCore

namespace Summary

variable {cs : List Cluster} {ss ss' : List Summary} {bit : Nat}

theorem join_comm (a b : Summary) : a.join b = b.join a := by
  rw [join, join, Cluster.intersection_comm, Cluster.union_comm]

theorem join_assoc (a b c : Summary) : (a.join b).join c = a.join (b.join c) := by
  rw [join, join, join, join, Cluster.intersection_assoc, Cluster.union_assoc]

theorem merge_cons (first : Summary) (some : ss ≠ []) :
    merge (first :: ss) = first.join (merge ss) := by
  cases ss with
  | nil => exact absurd rfl some
  | cons second rest =>
      rw [merge, merge, List.foldl_cons]
      clear some
      induction rest generalizing second with
      | nil => rfl
      | cons third rest ih => rw [List.foldl_cons, List.foldl_cons, join_assoc, ih]

theorem merge_append (some : ss ≠ []) (some' : ss' ≠ []) :
    merge (ss ++ ss') = (merge ss).join (merge ss') := by
  induction ss with
  | nil => exact absurd rfl some
  | cons first rest ih =>
      rw [List.cons_append, merge_cons _ (List.append_ne_nil_of_right_ne_nil rest some')]
      by_cases last : rest = []
      · rw [last]
        rfl
      · rw [ih last, merge_cons _ last, join_assoc]

/-- The order of the groups does not matter. -/
theorem merge_perm (perm : ss.Perm ss') : merge ss = merge ss' := by
  induction perm with
  | nil => rfl
  | @cons first rest rest' perm ih =>
      by_cases last : rest = []
      · rw [last, (perm.symm.trans (.of_eq last)).eq_nil]
      · rw [merge_cons _ last, ih, merge_cons _ fun none => last (perm.trans (.of_eq none)).eq_nil]
  | swap first second rest => rw [merge, merge, List.foldl_cons, List.foldl_cons, join_comm]
  | trans _ _ ih ih' => exact ih.trans ih'

/-- Groups of groups may be summed up one by one. -/
theorem merge_flatMap {β : Type} {f : β → List Summary} {xs : List β}
    (filled : ∀ x ∈ xs, f x ≠ []) :
    merge (xs.flatMap f) = merge (xs.map fun x => merge (f x)) := by
  induction xs with
  | nil => rfl
  | cons x xs ih =>
      obtain ⟨here, later⟩ := List.forall_mem_cons.1 filled
      rw [List.flatMap_cons, List.map_cons]
      by_cases last : xs = []
      · subst last
        rw [List.flatMap_nil, List.append_nil]
        rfl
      · have others : xs.flatMap f ≠ [] := by
          obtain ⟨y, hy⟩ := List.exists_mem_of_ne_nil xs last
          exact fun none => later y hy (List.flatMap_eq_nil_iff.1 none y hy)
        rw [merge_append here others, ih later, merge_cons _ (by simpa using last)]

/-- What some clusters have in common, and what they have together. -/
structure Sums (s : Summary) (cs : List Cluster) : Prop where
  all_iff : ∀ bit, s.all.contains bit = true ↔ cs ≠ [] ∧ ∀ c ∈ cs, c.contains bit = true
  any_iff : ∀ bit, s.any.contains bit = true ↔ ∃ c ∈ cs, c.contains bit = true
  eq_merge : s = .merge (cs.map .single)

theorem sums_merge (cs : List Cluster) : (merge (cs.map single)).Sums cs := by
  induction cs with
  | nil => exact ⟨fun bit => by simp [merge, none], fun bit => by simp [merge, none], rfl⟩
  | cons c cs ih =>
      by_cases last : cs = []
      · subst last
        exact ⟨fun bit => by simp [merge, single], fun bit => by simp [merge, single], rfl⟩
      · rw [List.map_cons, merge_cons _ (by simpa using last)]
        refine ⟨fun bit => ?_, fun bit => ?_, ?_⟩
        · rw [join, Cluster.contains_intersection, Bool.and_eq_true, ih.all_iff,
            List.forall_mem_cons]
          exact and_congr Iff.rfl (and_iff_right last) |>.trans
            (and_iff_right (List.cons_ne_nil c cs)).symm
        · rw [join, Cluster.contains_union, Bool.or_eq_true, ih.any_iff]
          simp only [List.mem_cons, exists_eq_or_imp, single]
        · rw [List.map_cons, merge_cons _ (by simpa using last)]

end Summary

namespace Node

variable {α : Type} {m : Nat} {n : Node α} {siblings : List (Node α)}

mutual

/-- The clusters of the leaves from a node downwards. -/
def clusters : Node α → List Cluster
  | mk _ _ _ leaves children => leaves.map (·.1) ++ clustersAll children

/-- The clusters of the leaves from several nodes downwards. -/
def clustersAll : List (Node α) → List Cluster
  | [] => []
  | n :: rest => clusters n ++ clustersAll rest

end

theorem clustersAll_eq_flatMap (siblings : List (Node α)) :
    clustersAll siblings = siblings.flatMap clusters := by
  induction siblings with
  | nil => rfl
  | cons n rest ih => rw [clustersAll, ih, List.flatMap_cons]

/-- There are leaves below every node of a forest. -/
theorem Grown.clusters_ne_nil (grown : Grown m n) : n.clusters ≠ [] := by
  induction grown with
  | leaf _ _ filled =>
      rw [clusters]
      exact List.append_ne_nil_of_left_ne_nil (by simpa using filled) _
  | @inner m h summary test children _ filled _ _ _ _ ih =>
      obtain ⟨k, hk⟩ := List.exists_mem_of_ne_nil children filled
      rw [clusters, clustersAll_eq_flatMap]
      intro none
      exact ih k hk (List.flatMap_eq_nil_iff.1 none k hk)

/-- When every node's summary is that of the clusters below it, so is that of them all. -/
theorem merge_summaries (grown : ∀ n ∈ siblings, Grown m n)
    (summed : ∀ n ∈ siblings, n.summary = .merge (n.clusters.map .single)) :
    Summary.merge (siblings.map summary) = .merge ((clustersAll siblings).map .single) := by
  rw [clustersAll_eq_flatMap, List.map_flatMap, Summary.merge_flatMap]
  · exact congrArg Summary.merge (List.map_congr_left summed)
  · intro n hn
    simpa using (grown n hn).clusters_ne_nil

/-- The summary of a node is that of the clusters of all leaves below it. -/
theorem Grown.summary_eq (grown : Grown m n) : n.summary = .merge (n.clusters.map .single) := by
  induction grown with
  | @leaf h test leaves =>
      rw [clusters, clustersAll, List.append_nil, List.map_map]
      rfl
  | @inner m h s test children _ filled summed _ _ grown ih =>
      rw [clusters, List.map_nil, List.nil_append, ← merge_summaries grown ih, summary, summed,
        summarise, if_neg (by simpa using filled)]

end Node

end SaturationCore
