/-
# Tries as maps from vectors to slots

A trie for vectors of one length has branches of one depth, of which none is without
edges, and edges ascend. Every operation keeps this shape. What an operation does can
then be said by what is found afterwards: it changes what is found under its vector, and
nothing under any other vector of the length.

An index puts the length in front: it is open at first, and the first vector fixes it.
-/
import Mathlib.Data.List.Basic
import Mathlib.Data.List.Pairwise
import SaturationCore.FeatureVector.Trie

namespace SaturationCore

namespace Trie

variable {α : Type} {n m : Nat} {v w : List Nat} {t below : Trie α} {edges : List (Nat × Trie α)}
  {payload : Option α}

/-! ## Edges -/

theorem follow?_cons {k : Nat} :
    follow? m ((k, below) :: edges) = if m = k then some below else follow? m edges := by
  by_cases here : m = k
  · simp [follow?, here]
  · simp [follow?, List.lookup_cons, beq_eq_false_iff_ne.2 here, here]

theorem follow?_place :
    follow? m (place n below edges) = if m = n then some below else follow? m edges := by
  induction edges with
  | nil => rw [place, follow?_cons]
  | cons edge edges ih =>
      obtain ⟨k, t⟩ := edge
      rw [place]
      split
      · next lower =>
          rw [follow?_cons, follow?_cons, ih]
          split
          · next here =>
              rw [if_neg]
              omega
          · rfl
      · split
        · next same =>
            rw [follow?_cons, follow?_cons, same]
            split <;> rfl
        · rw [follow?_cons]

theorem follow?_filter :
    follow? m (edges.filter (·.1 != n)) = if m = n then none else follow? m edges := by
  induction edges with
  | nil => simp [follow?]
  | cons edge edges ih =>
      obtain ⟨k, t⟩ := edge
      rw [List.filter_cons, follow?_cons]
      by_cases gone : k = n
      · subst gone
        simp only [bne_self_eq_false, Bool.false_eq_true, if_false, ih]
        split <;> rfl
      · simp only [bne_iff_ne.2 gone, if_true, follow?_cons, ih]
        by_cases here : m = n
        · subst here
          rw [if_neg (Ne.symm gone), if_pos rfl, if_pos rfl]
        · rw [if_neg here, if_neg here]

theorem mem_of_follow? (found : follow? n edges = some below) : (n, below) ∈ edges := by
  obtain ⟨front, back, split, -⟩ := List.lookup_eq_some_iff.1 found
  rw [split]
  exact List.mem_append_right front List.mem_cons_self

theorem mem_place {edge : Nat × Trie α} (h : edge ∈ place n below edges) :
    edge = (n, below) ∨ edge ∈ edges := by
  induction edges with
  | nil => exact .inl (List.mem_singleton.1 h)
  | cons first edges ih =>
      obtain ⟨k, t⟩ := first
      rw [place] at h
      split at h
      · rcases List.mem_cons.1 h with rfl | h
        · exact .inr List.mem_cons_self
        · exact (ih h).imp_right (List.mem_cons_of_mem _)
      · split at h
        · exact (List.mem_cons.1 h).imp_right (List.mem_cons_of_mem _)
        · exact List.mem_cons.1 h

theorem place_ne_nil : place n below edges ≠ [] := by
  cases edges with
  | nil => exact List.cons_ne_nil _ _
  | cons first edges =>
      rw [place]
      split
      · exact List.cons_ne_nil _ _
      · split <;> exact List.cons_ne_nil _ _

/-- The numbers of the edges ascend. -/
def Ascending (edges : List (Nat × Trie α)) : Prop :=
  edges.Pairwise fun e e' => e.1 < e'.1

theorem Ascending.place (ascending : Ascending edges) : Ascending (place n below edges) := by
  induction edges with
  | nil => exact List.pairwise_singleton _ _
  | cons first edges ih =>
      obtain ⟨k, t⟩ := first
      obtain ⟨least, others⟩ := List.pairwise_cons.1 ascending
      rw [Trie.place]
      split
      · next lower =>
          refine List.pairwise_cons.2 ⟨fun edge h => ?_, ih others⟩
          rcases mem_place h with rfl | h
          · exact lower
          · exact least edge h
      · split
        · next same =>
            subst same
            exact List.pairwise_cons.2 ⟨least, others⟩
        · refine List.pairwise_cons.2 ⟨List.forall_mem_cons.2 ⟨?_, fun edge h => ?_⟩, ascending⟩
          · show n < k
            omega
          · have := least edge h
            show n < edge.1
            omega

/-- Where edges ascend, following a number finds the edge with it. -/
theorem Ascending.follow?_iff (ascending : Ascending edges) :
    follow? m edges = some below ↔ (m, below) ∈ edges := by
  refine ⟨mem_of_follow?, fun h => ?_⟩
  induction edges with
  | nil => cases h
  | cons edge edges ih =>
      obtain ⟨k, t⟩ := edge
      obtain ⟨least, others⟩ := List.pairwise_cons.1 ascending
      rw [follow?_cons]
      rcases List.mem_cons.1 h with here | h
      · cases here
        rw [if_pos rfl]
      · have above : k < m := least _ h
        rw [if_neg (by omega), ih others h]

/-- The edges with another trie, or none, behind a number. -/
def graft (n : Nat) (sub : Option (Trie α)) (edges : List (Nat × Trie α)) : List (Nat × Trie α) :=
  match sub with
  | some below => place n below edges
  | none => edges.filter (·.1 != n)

theorem follow?_graft {sub : Option (Trie α)} :
    follow? m (graft n sub edges) = if m = n then sub else follow? m edges := by
  cases sub with
  | some below => exact follow?_place
  | none => exact follow?_filter

theorem Ascending.graft {sub : Option (Trie α)} (ascending : Ascending edges) :
    Ascending (graft n sub edges) := by
  cases sub with
  | some below => exact ascending.place
  | none => exact ascending.filter _

/-- An edge was there before, or leads to the new trie. -/
theorem mem_graft {sub : Option (Trie α)} {edge : Nat × Trie α} (h : edge ∈ graft n sub edges) :
    edge.2 ∈ sub ∨ edge ∈ edges := by
  cases sub with
  | some below =>
      refine (mem_place h).imp_left ?_
      rintro rfl
      exact Option.mem_some_self below
  | none => exact .inr (List.mem_filter.1 h).1

/-- Filling a slot grafts the trie in which it is filled. -/
theorem fill_branches {k : Nat} :
    fill payload (k :: v) (.branches edges) =
      .branches (graft k (some (((follow? k edges).map (fill payload v)).getD (path payload v)))
        edges) := by
  rw [fill]
  cases follow? k edges <;> rfl

/-- Removing a vector grafts what is left behind its first number. -/
theorem remove_branches {k : Nat} (found : follow? k edges = some below) :
    remove (k :: v) (.branches edges) =
      if (graft k (remove v below) edges).isEmpty then none
      else some (.branches (graft k (remove v below) edges)) := by
  rw [remove, found]
  rfl

/-! ## Shape -/

/-- A trie for vectors of a length. -/
inductive Shaped : Nat → Trie α → Prop where
  | slot (payload : Option α) : Shaped 0 (.slot payload)
  | branches {n : Nat} {edges : List (Nat × Trie α)} :
      edges ≠ [] → Ascending edges → (∀ edge ∈ edges, Shaped n edge.2) →
      Shaped (n + 1) (.branches edges)

theorem Shaped.graft {sub : Option (Trie α)} (some : graft m sub edges ≠ [])
    (ascending : Ascending edges) (inner : ∀ edge ∈ edges, Shaped n edge.2)
    (shaped : ∀ t ∈ sub, Shaped n t) : Shaped (n + 1) (.branches (graft m sub edges)) := by
  refine .branches some ascending.graft fun edge h => ?_
  rcases mem_graft h with new | old
  · exact shaped _ new
  · exact inner edge old

theorem shaped_path (payload : Option α) (v : List Nat) : Shaped v.length (path payload v) := by
  induction v with
  | nil => exact .slot payload
  | cons n v ih =>
      exact .branches (List.cons_ne_nil _ _) (List.pairwise_singleton _ _)
        (List.forall_mem_singleton.2 ih)

theorem Shaped.fill (shaped : t.Shaped v.length) : (t.fill payload v).Shaped v.length := by
  induction v generalizing t with
  | nil =>
      rw [Trie.fill]
      exact .slot payload
  | cons k v ih =>
      cases shaped with
      | @branches _ edges nonempty ascending inner =>
          rw [fill_branches]
          refine .graft place_ne_nil ascending inner fun t h => ?_
          cases h
          cases found : follow? k edges with
          | none => exact shaped_path payload v
          | some below => exact ih (inner _ (mem_of_follow? found))

theorem Shaped.remove (shaped : t.Shaped v.length) : ∀ t' ∈ t.remove v, t'.Shaped v.length := by
  induction v generalizing t with
  | nil =>
      cases shaped with
      | slot => exact nofun
  | cons k v ih =>
      cases shaped with
      | @branches _ edges nonempty ascending inner =>
          cases found : follow? k edges with
          | none =>
              rw [Trie.remove, found]
              intro t' same
              cases same
              exact .branches nonempty ascending inner
          | some below =>
              rw [remove_branches found]
              split
              · exact nofun
              · next kept =>
                  intro t' same
                  cases same
                  exact .graft (fun empty => kept (List.isEmpty_iff.2 empty)) ascending inner
                    (ih (inner _ (mem_of_follow? found)))

/-! ## Finding -/

theorem find?_branches {k : Nat} :
    find? (k :: v) (.branches edges) = (follow? k edges).bind (find? v) := rfl

theorem find?_slot : find? w (.slot payload) = if w = [] then some payload else none := by
  cases w <;> rfl

/-- What a graft changes under one vector, it changes there and nowhere else. -/
theorem find?_graft {k : Nat} {sub : Option (Trie α)} {found : Option (Option α)}
    (behind : ∀ w, sub.bind (find? w) =
      if w = v then found else (follow? k edges).bind (find? w)) :
    find? w (.branches (graft k sub edges)) =
      if w = k :: v then found else find? w (.branches edges) := by
  cases w with
  | nil => rfl
  | cons m w =>
      rw [find?_branches, find?_branches, follow?_graft]
      by_cases here : m = k
      · simp [here, behind w]
      · simp [here]

theorem find?_path : find? w (path payload v) = if w = v then some payload else none := by
  induction v generalizing w with
  | nil => exact find?_slot
  | cons n v ih =>
      have alone : path payload (n :: v) = .branches (graft n (some (path payload v)) []) := rfl
      have behind (w : List Nat) : (some (path payload v)).bind (find? w) =
          if w = v then some payload else (follow? n []).bind (find? w) := ih
      rw [alone, find?_graft behind]
      cases w <;> rfl

/-- Filling a slot changes what is found under its vector and nothing else. -/
theorem Shaped.find?_fill (shaped : t.Shaped v.length) :
    find? w (t.fill payload v) = if w = v then some payload else find? w t := by
  induction v generalizing t w with
  | nil =>
      cases shaped with
      | slot =>
          rw [Trie.fill, find?_slot, find?_slot]
          split <;> rfl
  | cons k v ih =>
      cases shaped with
      | @branches _ edges _ _ inner =>
          rw [fill_branches]
          refine find?_graft fun w => ?_
          cases found : follow? k edges with
          | none => exact find?_path
          | some below => exact ih (inner _ (mem_of_follow? found))

/-- Removing a vector changes what is found under it and nothing else. -/
theorem Shaped.find?_remove (shaped : t.Shaped v.length) :
    (t.remove v).bind (find? w) = if w = v then none else find? w t := by
  induction v generalizing t w with
  | nil =>
      cases shaped with
      | slot =>
          rw [find?_slot]
          cases w <;> rfl
  | cons k v ih =>
      cases shaped with
      | @branches _ edges _ _ inner =>
          cases found : follow? k edges with
          | none =>
              have gone : find? (k :: v) (.branches edges) = none := by
                rw [find?_branches, found]
                rfl
              have same : Trie.remove (k :: v) (.branches edges) = some (.branches edges) := by
                rw [Trie.remove, found]
              rw [same, Option.bind_some]
              split
              · next here => rw [here, gone]
              · rfl
          | some below =>
              have kept : find? w (.branches (Trie.graft k (below.remove v) edges)) =
                  if w = k :: v then none else find? w (.branches edges) := by
                refine find?_graft fun w => ?_
                rw [found, ih (inner _ (mem_of_follow? found))]
                rfl
              rw [remove_branches found, ← kept]
              split
              · next empty =>
                  rw [List.isEmpty_iff.1 empty]
                  cases w <;> rfl
              · rfl

/-- Only vectors of the length are found. -/
theorem Shaped.length_of_find? (shaped : t.Shaped n) (found : find? w t = some payload) :
    w.length = n := by
  induction w generalizing t n with
  | nil =>
      cases shaped with
      | slot => rfl
      | branches => cases found
  | cons k w ih =>
      cases shaped with
      | slot => cases found
      | @branches _ edges _ _ inner =>
          obtain ⟨below, there, found⟩ := Option.bind_eq_some_iff.1 found
          rw [List.length_cons, ih (inner _ (mem_of_follow? there)) found]

end Trie

namespace FeatureIndex

variable {α : Type} {ix : FeatureIndex α} {v w : List Nat}

/-- The trie of the index, if it has one, is a trie for vectors of its length. -/
def Sound (ix : FeatureIndex α) : Prop :=
  ∀ t ∈ ix.root, ∃ n, ix.length = some n ∧ t.Shaped n

theorem sound_empty : (empty : FeatureIndex α).Sound :=
  nofun

/-- Vectors of another length have no slot in the trie either. -/
theorem Sound.slot?_eq (sound : ix.Sound) : ix.slot? v = ix.root.bind (Trie.find? v) := by
  rw [slot?]
  split
  · rfl
  · next other =>
      cases root : ix.root with
      | none => rfl
      | some t =>
          obtain ⟨n, length, shaped⟩ := sound t root
          cases found : Trie.find? v t with
          | none => exact found.symm
          | some payload => exact absurd (shaped.length_of_find? found ▸ length) other

theorem Sound.shaped (sound : ix.Sound) (length : ix.length = some v.length) {t : Trie α}
    (root : ix.root = some t) : t.Shaped v.length := by
  obtain ⟨n, same, shaped⟩ := sound t root
  cases length.symm.trans same
  exact shaped

theorem length_of_slot? (present : (ix.slot? v).isSome = true) : ix.length = some v.length := by
  rw [slot?] at present
  split at present
  · assumption
  · cases present

/-- The length is open, or it is that of the vector. -/
def Takes (ix : FeatureIndex α) (v : List Nat) : Prop :=
  ix.length.getD v.length = v.length

/-- Inserting a vector answers what its slot holds and leaves the other slots alone. -/
theorem Sound.insert (sound : ix.Sound) (takes : ix.Takes v) :
    ∃ ix', ix.insert v = .ok ((ix.slot? v).join, ix') ∧ ix'.Sound ∧ ix'.length = some v.length ∧
      ∀ w, ix'.slot? w = if w = v then some (ix.slot? v).join else ix.slot? w := by
  have shaped (t : Trie α) (root : ix.root = some t) : t.Shaped v.length := by
    obtain ⟨n, length, shaped⟩ := sound t root
    rw [Takes, length, Option.getD_some] at takes
    rwa [← takes]
  have sound' : Sound { ix with length := some v.length } := fun t root =>
    ⟨v.length, rfl, shaped t root⟩
  have same (w : List Nat) : slot? { ix with length := some v.length } w = ix.slot? w := by
    rw [sound'.slot?_eq, sound.slot?_eq]
  have replaced (t : Trie α) (shaped : t.Shaped v.length)
      (found : ∀ w, t.find? w = if w = v then some none else ix.root.bind (Trie.find? w)) :
      Sound ⟨some v.length, some t⟩ ∧
        ∀ w, slot? ⟨some v.length, some t⟩ w = if w = v then some none else ix.slot? w := by
    have sound'' : Sound ⟨some v.length, some t⟩ := by
      intro t' here
      cases here
      exact ⟨v.length, rfl, shaped⟩
    refine ⟨sound'', fun w => ?_⟩
    rw [sound''.slot?_eq, sound.slot?_eq]
    exact found w
  have fits : (v.length == ix.length.getD v.length) = true := beq_iff_eq.2 takes.symm
  rw [FeatureIndex.insert, fits]
  simp only [require, bind, Except.bind, pure, Except.pure, if_true, same]
  cases held : ix.slot? v with
  | some payload =>
      refine ⟨_, rfl, sound', rfl, fun w => ?_⟩
      rw [same]
      split
      · next here => rw [here, held, Option.join_some]
      · rfl
  | none =>
      cases root : ix.root with
      | none =>
          obtain ⟨sound'', slots⟩ := replaced (.path none v) (Trie.shaped_path none v) fun w => by
            rw [root]
            exact Trie.find?_path
          exact ⟨_, rfl, sound'', rfl, slots⟩
      | some t =>
          obtain ⟨sound'', slots⟩ := replaced (t.fill none v) (shaped t root).fill fun w => by
            rw [root]
            exact (shaped t root).find?_fill
          exact ⟨_, rfl, sound'', rfl, slots⟩

/-- Filling a slot changes what it holds and leaves the other slots alone. -/
theorem Sound.fill (sound : ix.Sound) (present : (ix.slot? v).isSome = true) (payload : α) :
    (ix.fill v payload).Sound ∧ (ix.fill v payload).length = ix.length ∧
      ∀ w, (ix.fill v payload).slot? w = if w = v then some (some payload) else ix.slot? w := by
  have length : ix.length = some v.length := length_of_slot? present
  have filled : ix.fill v payload = { ix with root := ix.root.map (Trie.fill (some payload) v) } :=
    if_pos present
  have sound' : (ix.fill v payload).Sound := by
    rw [filled]
    intro t' after
    obtain ⟨t, root, rfl⟩ := Option.map_eq_some_iff.1 after
    exact ⟨v.length, length, (sound.shaped length root).fill⟩
  refine ⟨sound', by rw [filled], fun w => ?_⟩
  rw [sound'.slot?_eq, sound.slot?_eq, filled]
  cases root : ix.root with
  | none =>
      rw [sound.slot?_eq, root] at present
      cases present
  | some t => exact (sound.shaped length root).find?_fill

/-- Removing a vector answers what its slot held and leaves the other slots alone. -/
theorem Sound.remove (sound : ix.Sound) (v : List Nat) :
    (ix.remove v).1 = (ix.slot? v).join ∧ (ix.remove v).2.Sound ∧
      (ix.remove v).2.length = ix.length ∧
      ∀ w, (ix.remove v).2.slot? w = if w = v then none else ix.slot? w := by
  rw [FeatureIndex.remove]
  cases held : ix.slot? v with
  | none =>
      refine ⟨rfl, sound, rfl, fun w => ?_⟩
      by_cases here : w = v
      · rw [if_pos here, here]
        exact held
      · rw [if_neg here]
  | some payload =>
      have length : ix.length = some v.length := length_of_slot? (by rw [held]; rfl)
      have sound' : Sound { ix with root := ix.root.bind (Trie.remove v) } := by
        intro t' after
        obtain ⟨t, root, left⟩ := Option.bind_eq_some_iff.1 after
        exact ⟨v.length, length, (sound.shaped length root).remove t' left⟩
      refine ⟨rfl, sound', rfl, fun w => ?_⟩
      rw [sound'.slot?_eq, sound.slot?_eq]
      cases root : ix.root with
      | none =>
          rw [sound.slot?_eq, root] at held
          cases held
      | some t => exact (sound.shaped length root).find?_remove

end FeatureIndex

end SaturationCore
