/-
# Everything below a node

Listing a tree depth first gives every object of a cluster together with the heads
that lead to it. Under one spelling the list has just the objects that the leaves at
its end have, so all that a search finds can be counted against it. The tests are
sound for it: below a node whose test a cluster does not pass nothing is listed.
-/
import Mathlib.Data.List.Basic
import SaturationCore.Proofs.DiscriminationTree.Admission
import SaturationCore.Proofs.DiscriminationTree.Forest

namespace SaturationCore

/-- Objects, each with the heads of the term that it is stored under. -/
abbrev Listing (α : Type) := List (List Head × α)

variable {α : Type}

namespace Listing

/-- The objects listed under a spelling. -/
def under (hs : List Head) (l : Listing α) : List α :=
  (l.filter fun e => e.1 = hs).map (·.2)

variable {hs : List Head} {h : Head}

@[simp]
theorem under_append (a b : Listing α) : under hs (a ++ b) = under hs a ++ under hs b := by
  rw [under, List.filter_append, List.map_append]
  rfl

theorem under_eq_nil {l : Listing α} (absent : ∀ e ∈ l, e.1 ≠ hs) : under hs l = [] := by
  rw [under, List.map_eq_nil_iff, List.filter_eq_nil_iff]
  intro e he
  rw [decide_eq_true_eq]
  exact absent e he

theorem under_of_single (objects : List α) : under hs (objects.map (hs, ·)) = objects := by
  rw [under, List.filter_eq_self.2, List.map_map]
  · exact List.map_id objects
  · intro e he
    obtain ⟨_, _, rfl⟩ := List.mem_map.1 he
    exact decide_eq_true rfl

theorem under_flatMap {β : Type} (f : β → Listing α) (xs : List β) :
    under hs (xs.flatMap f) = xs.flatMap fun x => under hs (f x) := by
  induction xs with
  | nil => rfl
  | cons x xs ih => rw [List.flatMap_cons, under_append, ih, List.flatMap_cons]

theorem under_cons_map (l : Listing α) :
    under (h :: hs) (l.map fun e => (h :: e.1, e.2)) = under hs l := by
  rw [under, List.filter_map, List.map_map, under]
  congr 1
  apply List.filter_congr
  intro e _
  simp

/-- Listings with the same objects under every spelling differ in their order only. -/
theorem perm_of_under {a b : Listing α} (same : ∀ hs, under hs a = under hs b) : a.Perm b := by
  classical
  have counted (l : Listing α) (e : List Head × α) : l.count e = (under e.1 l).count e.2 := by
    rw [under, List.count, List.count, List.countP_map, List.countP_filter]
    apply List.countP_congr
    intro x _
    simp only [beq_iff_eq, Function.comp_apply, Bool.and_eq_true, decide_eq_true_eq]
    exact ⟨fun h => by rw [h]; exact ⟨rfl, rfl⟩, fun ⟨h, h'⟩ => Prod.ext h' h⟩
  rw [List.perm_iff_count]
  intro e
  rw [counted, counted, same]

end Listing

namespace Node

mutual

/-- The objects of a cluster from a node downwards, depth first. -/
def held (c : Cluster) : Node α → Listing α
  | mk h _ _ leaves children =>
    if children.isEmpty then ((leaves.lookup c).getD []).map ([h], ·)
    else (heldAll c children).map fun e => (h :: e.1, e.2)

/-- The objects of a cluster from several nodes downwards. -/
def heldAll (c : Cluster) : List (Node α) → Listing α
  | [] => []
  | n :: rest => held c n ++ heldAll c rest

end

variable {c : Cluster} {n : Node α} {siblings : List (Node α)} {h : Head} {rest : List Head}
  {m : Nat} {e : List Head × α}

theorem heldAll_eq_flatMap (c : Cluster) (siblings : List (Node α)) :
    heldAll c siblings = siblings.flatMap (held c) := by
  induction siblings with
  | nil => rfl
  | cons n rest ih => rw [heldAll, ih, List.flatMap_cons]

theorem held_leaf (h : Head) (s : Summary) (t : ClusterTest) (leaves : List (Cluster × List α)) :
    held c (mk h s t leaves []) = ((leaves.lookup c).getD []).map ([h], ·) := by
  rw [held]
  rfl

theorem held_inner (h : Head) (s : Summary) (t : ClusterTest) (leaves : List (Cluster × List α))
    {children : List (Node α)} (filled : children ≠ []) :
    held c (mk h s t leaves children) = (heldAll c children).map fun e => (h :: e.1, e.2) := by
  rw [held, if_neg (by simpa using filled)]

theorem exists_cons_of_mem_held (he : e ∈ held c n) : ∃ rest, e.1 = n.head :: rest := by
  obtain ⟨h, summary, test, leaves, children⟩ := n
  rw [held] at he
  split at he
  · obtain ⟨_, _, rfl⟩ := List.mem_map.1 he
    exact ⟨[], rfl⟩
  · obtain ⟨inner, _, rfl⟩ := List.mem_map.1 he
    exact ⟨inner.1, rfl⟩

theorem mem_heldAll_iff : e ∈ heldAll c siblings ↔ ∃ n ∈ siblings, e ∈ held c n := by
  rw [heldAll_eq_flatMap, List.mem_flatMap]

theorem mem_of_mem_lookup {leaves : List (Cluster × List α)} {object : α}
    (h : object ∈ (leaves.lookup c).getD []) : ∃ objects, (c, objects) ∈ leaves := by
  cases found : leaves.lookup c with
  | none =>
      rw [found] at h
      exact absurd h List.not_mem_nil
  | some objects =>
      obtain ⟨front, back, split, -⟩ := List.lookup_eq_some_iff.1 found
      exact ⟨objects, by rw [split]; exact List.mem_append_right front List.mem_cons_self⟩

/-- The summary of a node admits every cluster that has objects below it. -/
theorem Grown.admits_of_mem_held (grown : Grown m n) (he : e ∈ held c n) :
    n.summary.admits c = true := by
  induction grown generalizing e with
  | leaf =>
      rw [held_leaf] at he
      obtain ⟨object, stored, rfl⟩ := List.mem_map.1 he
      obtain ⟨objects, here⟩ := mem_of_mem_lookup stored
      exact Summary.admits_merge (List.mem_map.2 ⟨(c, objects), here, rfl⟩)
        (Summary.admits_single c)
  | inner _ filled summed _ _ _ ih =>
      rw [held_inner _ _ _ _ filled] at he
      obtain ⟨inner, hinner, -⟩ := List.mem_map.1 he
      obtain ⟨k, hk, hinner⟩ := mem_heldAll_iff.1 hinner
      rw [summary, summed, summarise, if_neg (by simpa using filled)]
      exact Summary.admits_merge (List.mem_map_of_mem hk) (ih k hk hinner)

/-- Below a node that a cluster does not pass, there is nothing of the cluster. -/
theorem Grown.held_eq_nil {parent : Summary} (grown : Grown m n)
    (tested : n.test = .between parent n.summary) (stopped : n.test.passes c = false) :
    held c n = [] := by
  rw [List.eq_nil_iff_forall_not_mem]
  intro e he
  rw [tested, Summary.passes_between parent (grown.admits_of_mem_held he)] at stopped
  cases stopped

theorem under_heldAll_of_absent (absent : ∀ n ∈ siblings, n.head ≠ h) :
    Listing.under (h :: rest) (heldAll c siblings) = [] := by
  apply Listing.under_eq_nil
  intro e he same
  obtain ⟨n, hn, he⟩ := mem_heldAll_iff.1 he
  obtain ⟨tail, spelled⟩ := exists_cons_of_mem_held he
  rw [spelled] at same
  exact absent n hn (List.cons.inj same).1

/-- Of arranged siblings, only the one with the first head leads on. -/
theorem Arranged.under_heldAll (arranged : Arranged siblings) (h : Head) (rest : List Head) :
    Listing.under (h :: rest) (heldAll c siblings) =
      Listing.under (h :: rest) (held c (child h siblings)) := by
  induction siblings with
  | nil => rfl
  | cons n later ih =>
      obtain ⟨first, arranged⟩ := List.pairwise_cons.1 arranged
      rw [heldAll, Listing.under_append, child_cons]
      by_cases here : n.head = h
      · rw [if_pos here, under_heldAll_of_absent, List.append_nil]
        intro k hk same
        have order := first k hk
        rw [same, here, Head.order_eq_iff.2 rfl] at order
        cases order
      · rw [if_neg here, ih arranged, Listing.under_eq_nil, List.nil_append]
        intro e he same
        obtain ⟨tail, spelled⟩ := exists_cons_of_mem_held he
        rw [spelled] at same
        exact here (List.cons.inj same).1

theorem held_fresh (h : Head) : held c (fresh h : Node α) = [] := rfl

theorem Grown.under_held (grown : Grown m n) (rest : List Head) :
    Listing.under (n.head :: rest) (held c n) =
      ((if rest.isEmpty then n.leaves else leavesAt rest n.children).lookup c).getD [] := by
  induction grown generalizing rest with
  | @leaf h test leaves =>
      rw [held_leaf]
      cases rest with
      | nil => exact Listing.under_of_single _
      | cons k rest =>
          show _ = ((leavesAt (k :: rest) []).lookup c).getD []
          rw [leavesAt_nil]
          apply Listing.under_eq_nil
          intro e he same
          obtain ⟨_, _, rfl⟩ := List.mem_map.1 he
          cases same
  | @inner m h summary test children _ filled _ arranged _ grown ih =>
      rw [held_inner _ _ _ _ filled]
      show Listing.under (h :: rest) _ = _
      rw [Listing.under_cons_map]
      cases rest with
      | nil =>
          apply Listing.under_eq_nil
          intro e he same
          obtain ⟨k, _, he⟩ := mem_heldAll_iff.1 he
          obtain ⟨tail, spelled⟩ := exists_cons_of_mem_held he
          rw [spelled] at same
          cases same
      | cons k rest =>
          rw [arranged.under_heldAll]
          show _ = ((leavesAt (k :: rest) children).lookup c).getD []
          rw [leavesAt_cons, child]
          cases found : find? k children with
          | none =>
              rw [Option.getD_none, held_fresh]
              split
              · rfl
              · exact congrArg (fun leaves => (List.lookup c leaves).getD [])
                  (leavesAt_nil rest).symm
          | some n =>
              obtain ⟨hn, rfl⟩ := mem_of_find? found
              exact ih n hn rest

/-- The listing of a forest has under a spelling what the leaves at its end have. -/
theorem Forest.under_heldAll (forest : Forest m siblings) (hs : List Head) :
    Listing.under hs (heldAll c siblings) = ((leavesAt hs siblings).lookup c).getD [] := by
  cases hs with
  | nil =>
      apply Listing.under_eq_nil
      intro e he same
      obtain ⟨n, _, he⟩ := mem_heldAll_iff.1 he
      obtain ⟨tail, spelled⟩ := exists_cons_of_mem_held he
      rw [spelled] at same
      cases same
  | cons h rest =>
      rw [forest.arranged.under_heldAll, leavesAt_cons]
      rcases forest.child_cases h with absent | ⟨grown, same⟩
      · rw [absent, held_fresh]
        split
        · rfl
        · exact congrArg (fun leaves => (List.lookup c leaves).getD []) (leavesAt_nil rest).symm
      · have listed := grown.under_held (c := c) rest
        rwa [same] at listed

end Node

end SaturationCore
