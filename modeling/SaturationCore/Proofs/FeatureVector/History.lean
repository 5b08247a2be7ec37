/-
# Histories of an index of vectors

What an index of vectors should hold can be said without a trie, by a map with slots: the
length of the vectors, once it is fixed, and which vectors have a slot, that may be empty or
filled. Inserting a vector gives it an empty slot unless it has one, and answers what the slot
holds, which may be filled then. Removing it takes the slot away. The first insertion fixes the
length for ever, and inserting a vector of another length is refused and changes nothing.

An index that keeps a map has the same slots, in a trie of the fixed shape. Every step answers
as the map does and leads to an index that keeps the map after it, so this holds after every
history. The trie is then no larger than it has to be: each of its edges leads to a slot.
-/
import Mathlib.Logic.Function.Basic
import SaturationCore.Proofs.FeatureVector.Trie

namespace SaturationCore

/-- A step in the use of an index of vectors. Inserting may fill the slot that is answered. -/
inductive SlotStep (α : Type) where
  | insert (v : List Nat) (filling : Option α)
  | find (v : List Nat)
  | replace (v : List Nat) (payload : α)
  | remove (v : List Nat)

/-- What a step answers. -/
inductive SlotReply (α : Type) where
  /-- The step was refused. -/
  | refused (fault : Fault)
  /-- What the slot of the vector held, if there was one. -/
  | held (payload : Option α)
  /-- Whether there was a payload to be replaced. -/
  | replaced (found : Bool)
deriving DecidableEq

/-- The length of the vectors, once it is fixed, and the slots that they have. -/
structure SlotMap (α : Type) where
  length : Option Nat
  slot : List Nat → Option (Option α)

variable {α : Type} {v w : List Nat} {path : List Nat}

/-- The vector that a step inserts. -/
def SlotStep.inserted? : SlotStep α → Option (List Nat)
  | insert v _ => some v
  | _ => none

namespace SlotMap

/-- No vector has a slot, and the length is open. -/
def empty : SlotMap α :=
  ⟨none, fun _ => none⟩

/-- What a step answers, and what it makes of the map. -/
def step (m : SlotMap α) : SlotStep α → SlotReply α × SlotMap α
  | .insert v filling =>
    if m.length.getD v.length = v.length then
      (.held (m.slot v).join,
        ⟨some v.length, Function.update m.slot v (some (filling.or (m.slot v).join))⟩)
    else (.refused .wrongDimension, m)
  | .find v => (.held (m.slot v).join, m)
  | .replace v payload =>
    if (m.slot v).join.isSome then
      (.replaced true, { m with slot := Function.update m.slot v (some (some payload)) })
    else (.replaced false, m)
  | .remove v => (.held (m.slot v).join, { m with slot := Function.update m.slot v none })

/-- What several steps answer, and what they make of the map. -/
def run : List (SlotStep α) → SlotMap α → List (SlotReply α) × SlotMap α
  | [], m => ([], m)
  | s :: rest, m =>
    let later := run rest (m.step s).2
    ((m.step s).1 :: later.1, later.2)

theorem length_step (m : SlotMap α) (s : SlotStep α) :
    (m.step s).2.length = m.length.or (s.inserted?.map (·.length)) := by
  cases s with
  | insert v filling =>
      rw [step]
      cases length : m.length with
      | none =>
          rw [Option.getD_none, if_pos rfl]
          rfl
      | some n =>
          split
          · next fits => exact congrArg some fits.symm
          · exact length
  | find v => exact Option.or_none.symm
  | replace v payload =>
      rw [step]
      split <;> exact Option.or_none.symm
  | remove v => exact Option.or_none.symm

/-- The length is that of the vector inserted first. -/
theorem length_run (steps : List (SlotStep α)) (m : SlotMap α) :
    (run steps m).2.length =
      m.length.or ((steps.findSome? SlotStep.inserted?).map (·.length)) := by
  induction steps generalizing m with
  | nil => exact Option.or_none.symm
  | cons s rest ih =>
      rw [run, ih, length_step, List.findSome?_cons]
      cases m.length with
      | some n => rfl
      | none => cases s.inserted? <;> rfl

end SlotMap

namespace Trie

variable {n : Nat} {t : Trie α} {edges : List (Nat × Trie α)}

/-- The trie behind the first numbers of a vector. -/
def behind? : List Nat → Trie α → Option (Trie α)
  | [], t => some t
  | n :: path, branches edges => (follow? n edges).bind (behind? path)
  | _ :: _, slot _ => none

/-- A trie of the fixed shape has a slot. -/
theorem Shaped.exists_find? (shaped : t.Shaped n) : ∃ v, (find? v t).isSome = true := by
  induction shaped with
  | slot payload => exact ⟨[], rfl⟩
  | @branches n edges nonempty ascending inner ih =>
      obtain ⟨edge, h⟩ := List.exists_mem_of_ne_nil edges nonempty
      obtain ⟨v, found⟩ := ih edge h
      refine ⟨edge.1 :: v, ?_⟩
      rwa [find?_branches, ascending.follow?_iff.2 h, Option.bind_some]

/-- What is behind the first numbers of vectors has the shape, and their slots. -/
theorem Shaped.behind (shaped : t.Shaped n) {below : Trie α} (reached : behind? path t = some below) :
    (∃ m, below.Shaped m) ∧ ∀ v, find? (path ++ v) t = find? v below := by
  induction path generalizing t n with
  | nil =>
      cases reached
      exact ⟨⟨n, shaped⟩, fun _ => rfl⟩
  | cons k path ih =>
      cases shaped with
      | slot => cases reached
      | @branches _ edges _ _ inner =>
          obtain ⟨next, followed, reached⟩ := Option.bind_eq_some_iff.1 reached
          obtain ⟨shaped, same⟩ := ih (inner _ (mem_of_follow? followed)) reached
          refine ⟨shaped, fun v => ?_⟩
          rw [List.cons_append, find?_branches, followed, Option.bind_some, same]

end Trie

namespace FeatureIndex

variable {ix : FeatureIndex α} {m : SlotMap α}

/-- Make a step in an index. One that is refused leaves the index as it is. -/
def step (ix : FeatureIndex α) : SlotStep α → SlotReply α × FeatureIndex α
  | .insert v filling =>
    match ix.insert v with
    | .error fault => (.refused fault, ix)
    | .ok (payload, ix) => (.held payload, (filling.map (ix.fill v)).getD ix)
  | .find v => (.held (ix.find? v), ix)
  | .replace v payload => ((ix.replace v payload).map .replaced id)
  | .remove v => ((ix.remove v).map .held id)

/-- Make several steps, one after the other. -/
def run : List (SlotStep α) → FeatureIndex α → List (SlotReply α) × FeatureIndex α
  | [], ix => ([], ix)
  | s :: rest, ix =>
    let later := run rest (ix.step s).2
    ((ix.step s).1 :: later.1, later.2)

/-- The index has the slots of a map, in a trie of the fixed shape. -/
structure Keeps (ix : FeatureIndex α) (m : SlotMap α) : Prop where
  sound : ix.Sound
  length_eq : ix.length = m.length
  slot?_eq : ∀ v, ix.slot? v = m.slot v

namespace Keeps

theorem empty : (FeatureIndex.empty : FeatureIndex α).Keeps .empty :=
  ⟨sound_empty, rfl, fun _ => rfl⟩

theorem find?_eq (keeps : ix.Keeps m) (v : List Nat) : ix.find? v = (m.slot v).join := by
  rw [find?, keeps.slot?_eq]

theorem insert (keeps : ix.Keeps m) (v : List Nat) (filling : Option α) :
    (ix.step (.insert v filling)).1 = (m.step (.insert v filling)).1 ∧
      (ix.step (.insert v filling)).2.Keeps (m.step (.insert v filling)).2 := by
  rw [step, SlotMap.step]
  by_cases fits : m.length.getD v.length = v.length
  · obtain ⟨ix', inserted, sound, length, slots⟩ :=
      keeps.sound.insert (v := v) (by rw [Takes, keeps.length_eq, fits])
    rw [if_pos fits, inserted, keeps.slot?_eq]
    refine ⟨rfl, ?_⟩
    cases filling with
    | none =>
        refine ⟨sound, length, fun w => ?_⟩
        dsimp only [Option.map_none, Option.getD_none, Option.none_or]
        rw [slots, keeps.slot?_eq, keeps.slot?_eq, Function.update_apply]
    | some payload =>
        have present : (ix'.slot? v).isSome = true := by
          rw [slots, if_pos rfl]
          rfl
        obtain ⟨sound', length', slots'⟩ := sound.fill present payload
        refine ⟨sound', length'.trans length, fun w => ?_⟩
        dsimp only [Option.map_some, Option.getD_some, Option.some_or]
        rw [slots', slots, keeps.slot?_eq w, Function.update_apply]
        split <;> rfl
  · have refused : ix.insert v = .error .wrongDimension := by
      rw [FeatureIndex.insert, keeps.length_eq, beq_eq_false_iff_ne.2 (Ne.symm fits)]
      rfl
    rw [if_neg fits, refused]
    exact ⟨rfl, keeps⟩

theorem replace (keeps : ix.Keeps m) (v : List Nat) (payload : α) :
    (ix.step (.replace v payload)).1 = (m.step (.replace v payload)).1 ∧
      (ix.step (.replace v payload)).2.Keeps (m.step (.replace v payload)).2 := by
  rw [step, SlotMap.step, FeatureIndex.replace, keeps.find?_eq]
  cases held : (m.slot v).join with
  | none => exact ⟨rfl, keeps⟩
  | some old =>
      have present : (ix.slot? v).isSome = true := by
        rw [keeps.slot?_eq, (Option.join_eq_some_iff).1 held]
        rfl
      obtain ⟨sound, length, slots⟩ := keeps.sound.fill present payload
      refine ⟨rfl, sound, length.trans keeps.length_eq, fun w => ?_⟩
      show (ix.fill v payload).slot? w = Function.update m.slot v (some (some payload)) w
      rw [slots, keeps.slot?_eq, Function.update_apply]

theorem remove (keeps : ix.Keeps m) (v : List Nat) :
    (ix.step (.remove v)).1 = (m.step (.remove v)).1 ∧
      (ix.step (.remove v)).2.Keeps (m.step (.remove v)).2 := by
  obtain ⟨answered, sound, length, slots⟩ := keeps.sound.remove v
  rw [keeps.slot?_eq] at answered
  refine ⟨congrArg SlotReply.held answered, sound, length.trans keeps.length_eq, fun w => ?_⟩
  show (ix.remove v).2.slot? w = Function.update m.slot v none w
  rw [slots, keeps.slot?_eq, Function.update_apply]

/-- Every step answers as the map does, and keeps the map after it. -/
theorem step (keeps : ix.Keeps m) (s : SlotStep α) :
    (ix.step s).1 = (m.step s).1 ∧ (ix.step s).2.Keeps (m.step s).2 := by
  cases s with
  | insert v filling => exact keeps.insert v filling
  | find v => exact ⟨congrArg SlotReply.held (keeps.find?_eq v), keeps⟩
  | replace v payload => exact keeps.replace v payload
  | remove v => exact keeps.remove v

theorem run (keeps : ix.Keeps m) (steps : List (SlotStep α)) :
    (ix.run steps).1 = (m.run steps).1 ∧ (ix.run steps).2.Keeps (m.run steps).2 := by
  induction steps generalizing ix m with
  | nil => exact ⟨rfl, keeps⟩
  | cons s rest ih =>
      obtain ⟨answered, keeps'⟩ := keeps.step s
      obtain ⟨answeredLater, keepsLater⟩ := ih keeps'
      exact ⟨congr (congrArg List.cons answered) answeredLater, keepsLater⟩

theorem slot_length (keeps : ix.Keeps m) (present : (m.slot v).isSome = true) :
    m.length = some v.length := by
  rw [← keeps.length_eq]
  exact length_of_slot? (by rwa [keeps.slot?_eq])

theorem isEmpty_iff (keeps : ix.Keeps m) : ix.isEmpty = true ↔ ∀ v, m.slot v = none := by
  rw [isEmpty, Option.isNone_iff_eq_none]
  constructor
  · intro root v
    rw [← keeps.slot?_eq, keeps.sound.slot?_eq, root]
    rfl
  · intro none
    cases root : ix.root with
    | none => rfl
    | some t =>
        obtain ⟨n, -, shaped⟩ := keeps.sound t root
        obtain ⟨v, found⟩ := shaped.exists_find?
        rw [← Option.bind_some (f := Trie.find? v), ← root, ← keeps.sound.slot?_eq,
          keeps.slot?_eq, none] at found
        cases found

/-- Edges ascend wherever they are, and each leads to a slot. -/
theorem edges (keeps : ix.Keeps m) {edges : List (Nat × Trie α)}
    (reached : ix.root.bind (Trie.behind? path) = some (.branches edges)) :
    Trie.Ascending edges ∧
      ∀ edge ∈ edges, ∃ v, (m.slot (path ++ edge.1 :: v)).isSome = true := by
  obtain ⟨t, root, reached⟩ := Option.bind_eq_some_iff.1 reached
  obtain ⟨n, -, shaped⟩ := keeps.sound t root
  obtain ⟨⟨k, below⟩, same⟩ := shaped.behind reached
  cases below with
  | branches _ ascending inner =>
      refine ⟨ascending, fun edge h => ?_⟩
      obtain ⟨v, found⟩ := (inner edge h).exists_find?
      refine ⟨v, ?_⟩
      rw [← keeps.slot?_eq, keeps.sound.slot?_eq, root, Option.bind_some, same,
        Trie.find?_branches, ascending.follow?_iff.2 h, Option.bind_some, found]

end Keeps

/-- The index is read as a map with slots, and its trie has nothing in it that does not lead to
one. -/
structure Refines (ix : FeatureIndex α) (m : SlotMap α) : Prop where
  length_eq : ix.length = m.length
  slot?_eq : ∀ v, ix.slot? v = m.slot v
  find?_eq : ∀ v, ix.find? v = (m.slot v).join
  isEmpty_iff : ix.isEmpty = true ↔ ∀ v, m.slot v = none
  slot_length : ∀ v, (m.slot v).isSome = true → m.length = some v.length
  edges : ∀ path edges, ix.root.bind (Trie.behind? path) = some (.branches edges) →
    Trie.Ascending edges ∧ ∀ edge ∈ edges, ∃ v, (m.slot (path ++ edge.1 :: v)).isSome = true

theorem Keeps.refines (keeps : ix.Keeps m) : ix.Refines m where
  length_eq := keeps.length_eq
  slot?_eq := keeps.slot?_eq
  find?_eq := keeps.find?_eq
  isEmpty_iff := keeps.isEmpty_iff
  slot_length _ := keeps.slot_length
  edges _ _ := keeps.edges

/-- Every history of an index that was empty is answered as by the map, and the index refines the
map after it. The length is that of the vector inserted first, whatever happened later. -/
theorem run_refines (steps : List (SlotStep α)) :
    (empty.run steps).1 = (SlotMap.empty.run steps).1 ∧
      (empty.run steps).2.Refines (SlotMap.empty.run steps).2 ∧
      (empty.run steps).2.length = (steps.findSome? SlotStep.inserted?).map (·.length) := by
  obtain ⟨answered, keeps⟩ := Keeps.empty.run steps
  refine ⟨answered, keeps.refines, ?_⟩
  rw [keeps.length_eq, SlotMap.length_run]
  exact Option.none_or

end FeatureIndex

end SaturationCore
