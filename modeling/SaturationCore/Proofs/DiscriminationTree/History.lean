/-
# Histories of an index

An index is changed by storing an object under a term and a cluster, and by erasing
or relocating those objects there that meet a condition. What it should hold after
some changes can be said without any tree, in two ways. The contents are a function
from keys to lists of objects, and a change is an update of that function at one key
or two. The record is a single list of all entries in the order in which they came to
where they are, and it is what searches are measured by. Both tell the same.
-/
import Mathlib.Algebra.BigOperators.Finprod
import SaturationCore.DiscriminationTree.Index

namespace SaturationCore

/-- What objects are stored under: the heads of a term, and a cluster. -/
structure Key where
  spelling : List Head
  cluster : Cluster
deriving DecidableEq

/-- A change of an index. -/
inductive Change (α : Type) where
  | insert (t : Subterm) (c : Cluster) (object : α)
  | erase (t : Subterm) (c : Cluster) (condition : α → Bool)
  | relocate (t : Subterm) (c target : Cluster) (condition : α → Bool)

/-- A list of objects for every key. -/
abbrev Contents (α : Type) := Key → List α

/-- An object with the term and the cluster that it is stored under. -/
structure Entry (α : Type) where
  term : Subterm
  cluster : Cluster
  object : α

variable {α : Type}

namespace Change

/-- The term under which something changes. -/
def term : Change α → Subterm
  | insert t _ _ => t
  | erase t _ _ => t
  | relocate t _ _ _ => t

/-- The keys under which something may change. -/
def addresses : Change α → List Key
  | insert t c _ => [⟨t.spelling, c⟩]
  | erase t c _ => [⟨t.spelling, c⟩]
  | relocate t c target _ => [⟨t.spelling, c⟩, ⟨t.spelling, target⟩]

/-- The cluster under which something may be stored by the change. -/
def target? : Change α → Option Cluster
  | insert _ c _ => some c
  | erase _ _ _ => none
  | relocate _ _ target _ => some target

/-- Make the change in an index. Erasing and relocating answer how many objects met
the condition. -/
def perform (ix : Index α) : Change α → Checked (Option Nat × Index α)
  | insert t c object => do return (none, ← ix.insert t c object)
  | erase t c condition => do
    let (count, ix) ← ix.erase t c condition
    return (some count, ix)
  | relocate t c target condition => do
    let (count, ix) ← ix.relocate t c target condition
    return (some count, ix)

end Change

/-- Make several changes, one after the other. -/
def Index.changeAll : List (Change α) → Index α → Checked (List (Option Nat) × Index α)
  | [], ix => return ([], ix)
  | change :: rest, ix => do
    let (answer, ix) ← change.perform ix
    let (answers, ix) ← changeAll rest ix
    return (answer :: answers, ix)

namespace Contents

/-- No objects under any key. -/
def empty : Contents α := fun _ => []

/-- Add objects behind those under a key. -/
def append (m : Contents α) (k : Key) (objects : List α) : Contents α :=
  Function.update m k (m k ++ objects)

/-- Keep only those objects under a key that do not meet a condition. -/
def prune (m : Contents α) (k : Key) (condition : α → Bool) : Contents α :=
  Function.update m k ((m k).filter fun object => !condition object)

/-- What a change makes of the contents, and what it answers. -/
def change (m : Contents α) : Change α → Option Nat × Contents α
  | .insert t c object => (none, m.append ⟨t.spelling, c⟩ [object])
  | .erase t c condition =>
    (some ((m ⟨t.spelling, c⟩).countP condition), m.prune ⟨t.spelling, c⟩ condition)
  | .relocate t c target condition =>
    (some ((m ⟨t.spelling, c⟩).countP condition),
      (m.prune ⟨t.spelling, c⟩ condition).append ⟨t.spelling, target⟩
        ((m ⟨t.spelling, c⟩).filter condition))

/-- What several changes make of the contents, and what they answer. -/
def changeAll : List (Change α) → Contents α → List (Option Nat) × Contents α
  | [], m => ([], m)
  | ch :: rest, m =>
    let later := changeAll rest (m.change ch).2
    ((m.change ch).1 :: later.1, later.2)

/-- How many objects there are under all keys together. -/
noncomputable def total (m : Contents α) : Nat :=
  ∑ᶠ k, (m k).length

/-- Where no object meets the condition, nothing is given up. -/
theorem prune_of_filter_eq_nil (m : Contents α) {k : Key} {condition : α → Bool}
    (none : (m k).filter condition = []) : m.prune k condition = m := by
  rw [prune, List.filter_eq_self.2, Function.update_eq_self]
  intro object h
  rw [Bool.not_eq_true']
  exact Bool.eq_false_iff.2 (List.filter_eq_nil_iff.1 none object h)

/-- Under the keys that a change does not address, nothing changes. -/
theorem change_of_not_mem (m : Contents α) {ch : Change α} {k : Key} (h : k ∉ ch.addresses) :
    (m.change ch).2 k = m k := by
  cases ch with
  | insert t c object =>
      exact Function.update_of_ne (fun same => h (List.mem_singleton.2 same)) _ _
  | erase t c condition =>
      exact Function.update_of_ne (fun same => h (List.mem_singleton.2 same)) _ _
  | relocate t c target condition =>
      rw [Change.addresses, List.mem_pair, not_or] at h
      calc
        (m.change (.relocate t c target condition)).2 k = m.prune ⟨t.spelling, c⟩ condition k :=
          Function.update_of_ne h.2 _ _
        _ = m k := Function.update_of_ne h.1 _ _

end Contents

namespace Entry

/-- The key under which an entry is stored. -/
def key (e : Entry α) : Key :=
  ⟨e.term.spelling, e.cluster⟩

/-- The objects of the entries under each key. -/
def contents (es : List (Entry α)) : Contents α :=
  fun k => (es.filter fun e => e.key = k).map (·.object)

/-- The entries after a change. What is relocated comes last. -/
def change (es : List (Entry α)) : Change α → List (Entry α)
  | .insert t c object => es ++ [⟨t, c, object⟩]
  | .erase t c condition => es.filter fun e => !(e.key = ⟨t.spelling, c⟩ && condition e.object)
  | .relocate t c target condition =>
    (es.filter fun e => !(e.key = ⟨t.spelling, c⟩ && condition e.object)) ++
      (es.filter fun e => e.key = ⟨t.spelling, c⟩ && condition e.object).map
        fun e => { e with cluster := target }

/-- The entries after several changes to an index that had none. -/
def record (changes : List (Change α)) : List (Entry α) :=
  changes.foldl change []

variable (es fs : List (Entry α))

theorem contents_append (k : Key) : contents (es ++ fs) k = contents es k ++ contents fs k := by
  rw [contents, List.filter_append, List.map_append]
  rfl

theorem contents_pruned (k : Key) (condition : α → Bool) :
    contents (es.filter fun e => !(e.key = k && condition e.object)) =
      (contents es).prune k condition := by
  funext other
  rw [Contents.prune, contents, List.filter_filter]
  by_cases same : other = k
  · subst same
    rw [Function.update_self, contents, List.filter_map, List.filter_filter]
    congr 1
    apply List.filter_congr
    intro e _
    by_cases here : e.key = other <;> simp [here]
  · rw [Function.update_of_ne same, contents]
    congr 1
    apply List.filter_congr
    intro e _
    by_cases here : e.key = other <;> simp [here, same]

theorem contents_moved (t : Subterm) (c target : Cluster) (condition : α → Bool) (k : Key) :
    contents ((es.filter fun e => e.key = ⟨t.spelling, c⟩ && condition e.object).map
        fun e => { e with cluster := target }) k =
      if k = ⟨t.spelling, target⟩ then (contents es ⟨t.spelling, c⟩).filter condition else [] := by
  rw [contents, List.filter_map, List.map_map, List.filter_filter]
  have landed : ∀ e : Entry α, e.key = ⟨t.spelling, c⟩ →
      ({ e with cluster := target } : Entry α).key = ⟨t.spelling, target⟩ := by
    intro e same
    rw [key, ← (Key.mk.inj same).1]
  by_cases here : k = ⟨t.spelling, target⟩
  · subst here
    rw [if_pos rfl, contents, List.filter_map, List.filter_filter]
    congr 1
    apply List.filter_congr
    intro e _
    by_cases same : e.key = ⟨t.spelling, c⟩
    · simp [same, landed e same]
    · simp [same]
  · rw [if_neg here, List.map_eq_nil_iff, List.filter_eq_nil_iff]
    intro e _ both
    simp only [Function.comp_apply, Bool.and_eq_true, decide_eq_true_eq] at both
    exact here (both.1.symm.trans (landed e both.2.1))

theorem countP_contents (k : Key) (condition : α → Bool) :
    (contents es k).countP condition = es.countP fun e => e.key = k && condition e.object := by
  rw [contents, List.countP_map, List.countP_filter]
  exact List.countP_congr fun e _ => by rw [Function.comp_apply, Bool.and_comm]

/-- What is erased is missing afterwards. -/
theorem length_change_erase (t : Subterm) (c : Cluster) (condition : α → Bool) :
    (change es (.erase t c condition)).length =
      es.length - (contents es ⟨t.spelling, c⟩).countP condition := by
  have all := List.length_eq_countP_add_countP
    (fun e : Entry α => e.key = ⟨t.spelling, c⟩ && condition e.object) (l := es)
  rw [change, countP_contents, ← List.countP_eq_length_filter]
  simp only [Bool.not_eq_true, Bool.decide_eq_false] at all
  omega

theorem length_change_relocate (t : Subterm) (c target : Cluster) (condition : α → Bool) :
    (change es (.relocate t c target condition)).length = es.length := by
  have all := List.length_eq_countP_add_countP
    (fun e : Entry α => e.key = ⟨t.spelling, c⟩ && condition e.object) (l := es)
  rw [change, List.length_append, List.length_map, ← List.countP_eq_length_filter,
    ← List.countP_eq_length_filter]
  simp only [Bool.not_eq_true, Bool.decide_eq_false] at all
  omega

/-- The record changes as the contents do. -/
theorem contents_change (ch : Change α) :
    contents (change es ch) = ((contents es).change ch).2 := by
  cases ch with
  | insert t c object =>
      funext k
      show _ = (contents es).append ⟨t.spelling, c⟩ [object] k
      rw [change, contents_append, Contents.append]
      by_cases same : k = ⟨t.spelling, c⟩
      · subst same
        rw [Function.update_self]
        congr 1
        simp [contents, key]
      · rw [Function.update_of_ne same]
        simp [contents, key, Ne.symm same]
  | erase t c condition => exact contents_pruned es _ condition
  | relocate t c target condition =>
      funext k
      show _ = Contents.append _ ⟨t.spelling, target⟩ _ k
      rw [change, contents_append, contents_pruned, contents_moved, Contents.append]
      by_cases same : k = ⟨t.spelling, target⟩
      · subst same
        rw [if_pos rfl, Function.update_self]
      · rw [if_neg same, Function.update_of_ne same, List.append_nil]

theorem contents_foldl_change (changes : List (Change α)) :
    contents (changes.foldl change es) = (Contents.changeAll changes (contents es)).2 := by
  induction changes generalizing es with
  | nil => rfl
  | cons ch rest ih =>
      rw [List.foldl_cons, ih, contents_change]
      rfl

theorem length_contents (k : Key) : (contents es k).length = (es.map key).count k := by
  rw [contents, List.length_map, List.count, List.countP_map, List.countP_eq_length_filter]
  congr 1

theorem support_contents :
    (Function.support fun k => (contents es k).length) ⊆ ((es.map key).toFinset : Set Key) := by
  intro k hk
  rw [Function.mem_support, length_contents] at hk
  rw [Finset.mem_coe, List.mem_toFinset]
  exact List.count_pos_iff.1 (Nat.pos_of_ne_zero hk)

/-- Only finitely many keys have objects. -/
theorem finite_contents : (Function.support fun k => (contents es k).length).Finite :=
  Set.Finite.subset (Finset.finite_toSet _) (support_contents es)

/-- There are as many entries as there are objects under all keys. -/
theorem total_contents : (contents es).total = es.length := by
  calc
    (contents es).total = ∑ k ∈ (es.map key).toFinset, (contents es k).length :=
      finsum_eq_sum_of_support_subset _ (support_contents es)
    _ = ∑ k ∈ (es.map key).toFinset, (es.map key).count k :=
      Finset.sum_congr rfl fun k _ => length_contents es k
    _ = es.length := by rw [List.sum_toFinset_count_eq_length, List.length_map]

/-- Changes that store only under certain clusters leave only such entries. -/
theorem cluster_of_mem_foldl {p : Cluster → Prop} {changes : List (Change α)} {es : List (Entry α)}
    (before : ∀ e ∈ es, p e.cluster) (stored : ∀ change ∈ changes, ∀ c ∈ change.target?, p c) :
    ∀ e ∈ changes.foldl change es, p e.cluster := by
  induction changes generalizing es with
  | nil => exact before
  | cons ch rest ih =>
      obtain ⟨first, later⟩ := List.forall_mem_cons.1 stored
      refine ih (fun e he => ?_) later
      cases ch with
      | insert t c object =>
          rcases List.mem_append.1 he with he | he
          · exact before e he
          · rw [List.mem_singleton.1 he]
            exact first c rfl
      | erase t c condition => exact before e (List.mem_of_mem_filter he)
      | relocate t c target condition =>
          rcases List.mem_append.1 he with he | he
          · exact before e (List.mem_of_mem_filter he)
          · obtain ⟨moved, _, rfl⟩ := List.mem_map.1 he
            exact first target rfl

end Entry

end SaturationCore
