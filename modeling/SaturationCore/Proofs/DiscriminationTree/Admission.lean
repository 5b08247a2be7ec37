/-
# What summaries and tests let through

A search leaves out a branch when the query's cluster is not between the intersection
and the union of the clusters below it, or does not have the bits tested on the way
in. Nothing is lost by that. A summary admits every cluster that went into it, also
through further summaries, and what a child's summary admits passes the test at the
child, whatever the parent.

Comparing clusters compares the words they are written in as well. A mask made of
fewer bits fits into the words of the larger one, so the widths never stand in the way.
-/
import SaturationCore.DiscriminationTree.Node
import SaturationCore.Proofs.Cluster

namespace SaturationCore

namespace Summary

variable {r s t : Summary} {c : Cluster}

theorem admits_iff : s.admits c = true ↔ s.all.Below c ∧ c.Below s.any := by
  rw [admits, Bool.and_eq_true, Cluster.containsAll_iff, Cluster.containsAll_iff]

theorem admits_single (c : Cluster) : (single c).admits c = true :=
  admits_iff.2 ⟨.refl c, .refl c⟩

/-- The clusters between the intersection and the union of `t` are between those of `s`. -/
structure Covers (s t : Summary) : Prop where
  all : s.all.Below t.all
  any : t.any.Below s.any

namespace Covers

theorem refl (s : Summary) : s.Covers s :=
  ⟨.refl _, .refl _⟩

theorem trans (first : r.Covers s) (second : s.Covers t) : r.Covers t :=
  ⟨first.all.trans second.all, second.any.trans first.any⟩

theorem admits (covers : s.Covers t) (h : t.admits c = true) : s.admits c = true := by
  obtain ⟨all, any⟩ := admits_iff.1 h
  exact admits_iff.2 ⟨covers.all.trans all, any.trans covers.any⟩

end Covers

theorem covers_join_left (s t : Summary) : (s.join t).Covers s :=
  ⟨Cluster.intersection_below_left _ _, Cluster.below_union_left _ _⟩

theorem covers_join_right (s t : Summary) : (s.join t).Covers t :=
  ⟨Cluster.intersection_below_right _ _, Cluster.below_union_right _ _⟩

theorem covers_foldl_join (s : Summary) (rest : List Summary) : (rest.foldl join s).Covers s := by
  induction rest generalizing s with
  | nil => exact .refl s
  | cons t rest ih => exact (ih _).trans (covers_join_left s t)

/-- Summing up covers all that is summed up. -/
theorem covers_merge {summaries : List Summary} (hs : s ∈ summaries) : (merge summaries).Covers s := by
  cases summaries with
  | nil => exact absurd hs List.not_mem_nil
  | cons first rest =>
      rw [merge]
      induction rest generalizing first with
      | nil =>
          rw [List.mem_singleton] at hs
          rw [hs]
          exact .refl first
      | cons t rest ih =>
          rw [List.foldl_cons]
          rcases List.mem_cons.1 hs with rfl | hs
          · exact (covers_foldl_join _ rest).trans (covers_join_left s t)
          · rcases List.mem_cons.1 hs with rfl | hs
            · exact (covers_foldl_join _ rest).trans (covers_join_right first s)
            · exact ih _ (List.mem_cons_of_mem _ hs)

/-- Summing up loses no cluster. -/
theorem admits_merge {summaries : List Summary} (hs : s ∈ summaries) (h : s.admits c = true) :
    (merge summaries).admits c = true :=
  (covers_merge hs).admits h

/-- What a child's summary admits passes the test at the child. -/
theorem passes_between (parent : Summary) (h : s.admits c = true) :
    (ClusterTest.between parent s).passes c = true := by
  obtain ⟨all, any⟩ := admits_iff.1 h
  rw [ClusterTest.passes, Bool.and_eq_true]
  constructor
  · exact Cluster.containsAll_iff.2 ((Cluster.difference_below _ _).trans all)
  · apply Cluster.isDisjoint_iff.2
    intro bit h
    have lacking : (parent.any.difference s.any).contains bit =
        (parent.any.contains bit && !s.any.contains bit) := Cluster.contains_difference _ _ bit
    rw [any.2 bit h, Bool.not_true, Bool.and_false] at lacking
    exact lacking

end Summary

end SaturationCore
