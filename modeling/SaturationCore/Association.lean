/-
# Association lists in order of insertion

An association list keeps its keys in the order in which they came. Changing an
entry leaves it in its place, a new entry goes to the end, and an entry can be
given up.
-/

namespace SaturationCore

namespace Association

variable {κ β : Type} [DecidableEq κ]

/-- Change the entry of a key. The change sees what the key has now and says what
it has afterwards, or that it has nothing. -/
def alter (key : κ) (change : Option β → Option β) : List (κ × β) → List (κ × β)
  | [] => ((change none).map (key, ·)).toList
  | (k, b) :: rest =>
    if k = key then ((change (some b)).map (key, ·)).toList ++ rest
    else (k, b) :: alter key change rest

/-- Changing an entry changes what its key has and nothing else. -/
theorem lookup_alter (key k : κ) (change : Option β → Option β) {store : List (κ × β)}
    (distinct : (store.map (·.1)).Nodup) :
    (alter key change store).lookup k =
      if k = key then change (store.lookup key) else store.lookup k := by
  induction store with
  | nil => cases h : change none <;> by_cases same : k = key <;> simp [alter, h, same]
  | cons entry rest ih =>
    obtain ⟨k', b⟩ := entry
    simp only [List.map_cons, List.nodup_cons] at distinct
    by_cases first : k' = key
    · subst first
      have gone : rest.lookup k' = none := by
        rw [List.lookup_eq_none_iff]
        intro entry h
        have : entry.1 ≠ k' := fun same => distinct.1 (same ▸ List.mem_map_of_mem h)
        simpa using this.symm
      by_cases same : k = k'
      · cases h : change (some b) <;> simp [alter, h, same, gone]
      · have other : (k == k') = false := by simpa using same
        cases h : change (some b) <;> simp [alter, h, same, other, List.lookup_cons]
    · by_cases same : k = key
      · subst same
        simp [alter, first, List.lookup_cons, ih distinct.2, beq_eq_false_iff_ne.2 (Ne.symm first)]
      · by_cases here : k = k' <;> simp [alter, first, List.lookup_cons, ih distinct.2, same, here]

variable {α : Type}

/-- Add objects behind those that a key has. -/
def append (key : κ) (objects : List α) (store : List (κ × List α)) : List (κ × List α) :=
  alter key (fun old => some (old.getD [] ++ objects)) store

/-- Give a key these objects; without any, the key is given up. -/
def assign (key : κ) (objects : List α) (store : List (κ × List α)) : List (κ × List α) :=
  alter key (fun _ => if objects.isEmpty then none else some objects) store

end Association

end SaturationCore
