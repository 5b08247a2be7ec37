/-
# What cursors enumerate after a history

A cursor over an index that keeps a map gives out the payloads of the filled vectors within its
bound, each once and in lexicographic order of the vectors, and knows at every moment whether
one is left. This holds of an index without vectors, of one that was emptied, and of vectors
without numbers as well.
-/
import SaturationCore.Proofs.FeatureVector.History
import SaturationCore.Proofs.FeatureVector.Selection

namespace SaturationCore

variable {α : Type}

namespace Cursor

variable {c : Cursor α} {payloads : List α}

/-- Another payload is left while fewer were taken than there are, and it is the next of them. -/
theorem Owes.after_next (owes : c.Owes payloads) (taken : Nat) :
    (c.after taken).hasNext = decide (taken < payloads.length) ∧
      (c.after taken).next.1 = payloads[taken]? := by
  have left := owes.after taken
  rw [left.hasNext_eq, left.next.1, List.head?_drop]
  refine ⟨?_, rfl⟩
  rw [Bool.eq_iff_iff, Bool.not_eq_true', List.isEmpty_eq_false_iff, decide_eq_true_eq, ne_eq,
    List.drop_eq_nil_iff, Nat.not_le]

end Cursor

namespace FeatureIndex

variable {ix : FeatureIndex α} {m : SlotMap α} {v : List Nat} {a : α}

/-- The entries ascend in lexicographic order. -/
theorem Sound.pairwise_entries (sound : ix.Sound) :
    ix.entries.Pairwise fun e e' => e.1 < e'.1 := by
  rw [entries]
  cases root : ix.root with
  | none => exact .nil
  | some t =>
      obtain ⟨n, -, shaped⟩ := sound t root
      exact shaped.pairwise_entries

/-- The entries are the filled vectors of a map that the index keeps. -/
theorem Keeps.mem_entries_iff (keeps : ix.Keeps m) :
    (v, a) ∈ ix.entries ↔ m.slot v = some (some a) := by
  rw [keeps.sound.mem_entries_iff, keeps.find?_eq, Option.join_eq_some_iff]

/-- After every history, a cursor enumerates the filled vectors within its bound: however many
payloads were taken, it knows whether one is left, and answers it or that there is none. -/
theorem start_enumerates (steps : List (SlotStep α)) (b : Bound) (query : List Nat)
    (fits : (SlotMap.empty.run steps).2.length.getD query.length = query.length) :
    ∃ (c : Cursor α) (stored : List (List Nat × α)),
      Cursor.start (empty.run steps).2 b query = .ok c ∧
      stored.Pairwise (fun e e' => e.1 < e'.1) ∧
      (∀ v a, (v, a) ∈ stored ↔
        (SlotMap.empty.run steps).2.slot v = some (some a) ∧ b.Within query v) ∧
      ∀ taken, (c.after taken).hasNext = decide (taken < stored.length) ∧
        (c.after taken).next.1 = (stored[taken]?).map (·.2) := by
  obtain ⟨-, keeps⟩ := Keeps.empty.run steps
  have takes : (empty.run steps).2.Takes query := by rwa [Takes, keeps.length_eq]
  obtain ⟨c, started, owes⟩ := keeps.sound.start_owes takes b
  refine ⟨c, (empty.run steps).2.entries.filter fun e => b.Within query e.1, started,
    keeps.sound.pairwise_entries.filter _, fun v a => ?_, fun taken => ?_⟩
  · rw [List.mem_filter, keeps.mem_entries_iff, decide_eq_true_eq]
  · obtain ⟨more, given⟩ := owes.after_next taken
    rw [more, given, Bound.payloads, List.length_map, List.getElem?_map]
    exact ⟨rfl, rfl⟩

/-- Of five vectors, one is removed again, one is left empty, and one is not below the query. The
cursor gives out the payloads of the other two. -/
theorem start_enumerates_two_of_five :
    ∃ (c : Cursor Char) (stored : List (List Nat × Char)),
      Cursor.start (empty.run [.insert [1, 0] (some 'a'), .insert [0, 3] (some 'b'),
        .insert [0, 1] none, .insert [2, 0] (some 'c'), .insert [0, 0] (some 'd'),
        .remove [0, 0]]).2 .atMost [1, 3] = .ok c ∧
      stored.Pairwise (fun e e' => e.1 < e'.1) ∧
      (([0, 3], 'b') ∈ stored ∧ ([1, 0], 'a') ∈ stored ∧ ([0, 0], 'd') ∉ stored ∧
        ([2, 0], 'c') ∉ stored) ∧
      ∀ taken, (c.after taken).hasNext = decide (taken < stored.length) ∧
        (c.after taken).next.1 = (stored[taken]?).map (·.2) := by
  obtain ⟨c, stored, started, ascending, mem, given⟩ :=
    start_enumerates [.insert [1, 0] (some 'a'), .insert [0, 3] (some 'b'),
      .insert [0, 1] none, .insert [2, 0] (some 'c'), .insert [0, 0] (some 'd'),
      .remove [0, 0]] .atMost [1, 3] (by decide)
  refine ⟨c, stored, started, ascending, ⟨?_, ?_, ?_, ?_⟩, given⟩ <;> rw [mem] <;> decide

end FeatureIndex

end SaturationCore
