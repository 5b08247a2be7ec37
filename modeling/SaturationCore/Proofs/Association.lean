/-
# Tidy association lists

The stores of an index are association lists from keys to chains of objects. A tidy
one has no key twice and no key without objects. Changes that never leave an empty
chain behind keep it tidy, and what a key has afterwards can be looked up.
-/
import Mathlib.Data.List.Nodup
import SaturationCore.Association

namespace SaturationCore

namespace Association

variable {κ β : Type}

/-- No key comes twice, and none is without objects. -/
structure Tidy (store : List (κ × List β)) : Prop where
  distinct : (store.map (·.1)).Nodup
  filled : ∀ entry ∈ store, entry.2 ≠ []

theorem Tidy.nil : Tidy ([] : List (κ × List β)) :=
  ⟨List.nodup_nil, fun _ h => absurd h List.not_mem_nil⟩

variable [DecidableEq κ] {key k : κ} {store : List (κ × List β)}

/-- An entry after a change was there before, or is what the key's entry was changed
into. -/
theorem mem_alter {γ : Type} {store : List (κ × γ)} {change : Option γ → Option γ} {entry : κ × γ}
    (h : entry ∈ alter key change store) :
    entry ∈ store ∨
      entry.1 = key ∧ ∃ old, (∀ value ∈ old, (key, value) ∈ store) ∧ change old = some entry.2 := by
  have new : ∀ old, entry ∈ ((change old).map (key, ·)).toList →
      entry.1 = key ∧ change old = some entry.2 := by
    intro old h
    obtain ⟨value, made, rfl⟩ := Option.map_eq_some_iff.1 (Option.mem_toList.1 h)
    exact ⟨rfl, made⟩
  induction store with
  | nil =>
      obtain ⟨same, made⟩ := new none h
      exact .inr ⟨same, none, fun _ absent => (nomatch absent), made⟩
  | cons first rest ih =>
      obtain ⟨k, b⟩ := first
      rw [alter] at h
      split at h
      · rename_i here
        subst here
        rcases List.mem_append.1 h with h | h
        · obtain ⟨same, made⟩ := new _ h
          refine .inr ⟨same, some b, fun value found => ?_, made⟩
          cases found
          exact List.mem_cons_self
        · exact .inl (List.mem_cons_of_mem _ h)
      · rcases List.mem_cons.1 h with rfl | h
        · exact .inl List.mem_cons_self
        · rcases ih h with h | ⟨same, old, inside, made⟩
          · exact .inl (List.mem_cons_of_mem _ h)
          · exact .inr ⟨same, old,
              fun value found => List.mem_cons_of_mem _ (inside value found), made⟩

theorem nodup_alter {γ : Type} {store : List (κ × γ)} {change : Option γ → Option γ}
    (distinct : (store.map (·.1)).Nodup) : ((alter key change store).map (·.1)).Nodup := by
  induction store with
  | nil =>
      rw [alter]
      cases change none with
      | none => exact List.nodup_nil
      | some value => exact List.nodup_singleton key
  | cons first rest ih =>
      obtain ⟨k, b⟩ := first
      obtain ⟨new, distinct⟩ := List.nodup_cons.1 distinct
      rw [alter]
      split
      · rename_i same
        subst same
        cases change (some b) with
        | none => exact distinct
        | some value => exact List.nodup_cons.2 ⟨new, distinct⟩
      · rename_i other
        refine List.nodup_cons.2 ⟨fun again => ?_, ih distinct⟩
        obtain ⟨entry, h, same⟩ := List.mem_map.1 again
        rcases mem_alter h with h | ⟨changed, -⟩
        · exact new (List.mem_map.2 ⟨entry, h, same⟩)
        · exact other (same.symm.trans changed)

theorem Tidy.alter {change : Option (List β) → Option (List β)} (tidy : Tidy store)
    (filled : ∀ old, change old ≠ some []) : Tidy (Association.alter key change store) := by
  refine ⟨nodup_alter tidy.distinct, fun entry h => ?_⟩
  rcases mem_alter h with h | ⟨-, old, -, made⟩
  · exact tidy.filled entry h
  · intro empty
    exact filled old (empty ▸ made)

theorem Tidy.append {objects : List β} (tidy : Tidy store) (some : objects ≠ []) :
    Tidy (append key objects store) := by
  refine tidy.alter fun old made => some ?_
  exact (List.append_eq_nil_iff.1 (Option.some.inj made)).2

theorem Tidy.assign (tidy : Tidy store) (objects : List β) : Tidy (assign key objects store) := by
  refine tidy.alter fun old made => ?_
  cases objects with
  | nil => cases made
  | cons object rest => cases made

theorem getD_lookup_append (tidy : Tidy store) (objects : List β) :
    ((append key objects store).lookup k).getD [] =
      if k = key then (store.lookup key).getD [] ++ objects else (store.lookup k).getD [] := by
  rw [append, lookup_alter key k _ tidy.distinct]
  split <;> rfl

theorem getD_lookup_assign (tidy : Tidy store) (objects : List β) :
    ((assign key objects store).lookup k).getD [] =
      if k = key then objects else (store.lookup k).getD [] := by
  rw [assign, lookup_alter key k _ tidy.distinct]
  split
  · cases objects with
    | nil => rfl
    | cons object rest => rfl
  · rfl

theorem lookup_eq_some_iff {store : List (κ × β)} {value : β}
    (distinct : (store.map (·.1)).Nodup) : store.lookup k = some value ↔ (k, value) ∈ store := by
  constructor
  · intro found
    obtain ⟨front, back, split, -⟩ := List.lookup_eq_some_iff.1 found
    rw [split]
    exact List.mem_append_right front List.mem_cons_self
  · intro h
    obtain ⟨front, back, split⟩ := List.append_of_mem h
    refine List.lookup_eq_some_iff.2 ⟨front, back, split, fun entry before => ?_⟩
    rw [split, List.map_append, List.map_cons] at distinct
    have apart := (List.nodup_append.1 distinct).2.2 _ (List.mem_map_of_mem before) _
      List.mem_cons_self
    exact bne_iff_ne.2 (Ne.symm apart)

/-- The same entries, maybe in another order. -/
structure Rearranged (store store' : List (κ × β)) : Prop where
  perm : store.Perm store'
  lookup_eq : ∀ k, store.lookup k = store'.lookup k

/-- Tidy stores that have the same under every key differ in their order only. -/
theorem Tidy.rearranged {store' : List (κ × List β)} (tidy : Tidy store) (tidy' : Tidy store')
    (same : ∀ k, (store.lookup k).getD [] = (store'.lookup k).getD []) :
    Rearranged store store' := by
  have filled {store : List (κ × List β)} (tidy : Tidy store) (k : κ) :
      store.lookup k = let objects := (store.lookup k).getD []
        if objects.isEmpty then none else some objects := by
    cases found : store.lookup k with
    | none => rfl
    | some objects =>
        have some := tidy.filled _ ((lookup_eq_some_iff tidy.distinct).1 found)
        rw [Option.getD_some, if_neg (by simpa using some)]
  have looked (k : κ) : store.lookup k = store'.lookup k := by
    rw [filled tidy, filled tidy', same]
  refine ⟨(List.perm_ext_iff_of_nodup tidy.distinct.of_map tidy'.distinct.of_map).2 ?_, looked⟩
  rintro ⟨k, objects⟩
  rw [← lookup_eq_some_iff tidy.distinct, ← lookup_eq_some_iff tidy'.distinct, looked]

end Association

end SaturationCore
