/-
# The subsumption index answers exactly

What an index should hold after some changes is a roster: how many clauses were added so
far, and which clause is live under each number. Adding a clause gives it the next number,
removing a number takes its clause away, and nothing else changes.

An index reflects a roster when the clauses are at their places and every vector lists the
numbers of the live clauses that have it. Both changes keep this. So a search that visits
the vectors within the bound of a clause's vector meets exactly the live clauses whose
vectors are, each once. A clause that subsumes another has a vector that is nowhere
greater, so the bound hides none that the subsumption test would accept.
-/
import Mathlib.Data.Set.Card
import Mathlib.Data.Set.Finite.Basic
import SaturationCore.Proofs.FeatureVector.Selection
import SaturationCore.Proofs.Subsumption.Features
import SaturationCore.Subsumption.Index

namespace SaturationCore

/-- A change of an index of clauses. -/
inductive ClauseChange where
  | add (c : Clause)
  | remove (id : Nat)

/-- Every clause that a change adds is well-formed. -/
def ClauseChange.WellFormed (sig : Signature) : ClauseChange → Prop
  | .add c => c.WellFormed sig
  | .remove _ => True

instance (sig : Signature) : (ch : ClauseChange) → Decidable (ch.WellFormed sig)
  | .add c => inferInstanceAs (Decidable (c.WellFormed sig))
  | .remove _ => inferInstanceAs (Decidable True)

/-- What a change answers. -/
inductive ClauseReply where
  | added (id : Nat)
  | removed (c : Option Clause)

/-- How many clauses were added, and which is live under each number. -/
structure Roster where
  next : Nat
  clause : Nat → Option Clause

namespace Roster

/-- No clause was added. -/
def empty : Roster :=
  ⟨0, fun _ => none⟩

/-- What a change makes of the roster, and what it answers. -/
def change (m : Roster) : ClauseChange → ClauseReply × Roster
  | .add c => (.added m.next, ⟨m.next + 1, Function.update m.clause m.next (some c)⟩)
  | .remove id => (.removed (m.clause id), ⟨m.next, Function.update m.clause id none⟩)

theorem clause_add (m : Roster) (c : Clause) (id : Nat) :
    (m.change (.add c)).2.clause id = if id = m.next then some c else m.clause id :=
  Function.update_apply ..

theorem clause_remove (m : Roster) (k id : Nat) :
    (m.change (.remove k)).2.clause id = if id = k then none else m.clause id :=
  Function.update_apply ..

/-- What several changes make of the roster, and what they answer. -/
def changeAll : List ClauseChange → Roster → List ClauseReply × Roster
  | [], m => ([], m)
  | change :: rest, m =>
    let later := changeAll rest (m.change change).2
    ((m.change change).1 :: later.1, later.2)

/-- The numbers of the live clauses. -/
def live (m : Roster) : Set Nat :=
  {id | (m.clause id).isSome = true}

theorem mem_live_iff {m : Roster} {id : Nat} : id ∈ m.live ↔ (m.clause id).isSome = true :=
  Iff.rfl

theorem live_add (m : Roster) (c : Clause) : (m.change (.add c)).2.live = insert m.next m.live := by
  ext id
  rw [Set.mem_insert_iff, mem_live_iff, mem_live_iff, clause_add]
  by_cases here : id = m.next <;> simp [here]

theorem live_remove (m : Roster) (k : Nat) : (m.change (.remove k)).2.live = m.live \ {k} := by
  ext id
  rw [Set.mem_sdiff_singleton, mem_live_iff, mem_live_iff, clause_remove]
  by_cases here : id = k <;> simp [here]

/-- The live clauses are well-formed. -/
def WellFormed (sig : Signature) (m : Roster) : Prop :=
  ∀ id c, m.clause id = some c → c.WellFormed sig

theorem wellFormed_empty (sig : Signature) : empty.WellFormed sig :=
  fun _ _ live => nomatch live

theorem WellFormed.change {sig : Signature} {m : Roster} {ch : ClauseChange}
    (wf : m.WellFormed sig) (added : ch.WellFormed sig) : (m.change ch).2.WellFormed sig := by
  intro id c alive
  cases ch with
  | add c' =>
      rw [clause_add] at alive
      split at alive
      · cases alive
        exact added
      · exact wf id c alive
  | remove k =>
      rw [clause_remove] at alive
      split at alive
      · cases alive
      · exact wf id c alive

theorem WellFormed.changeAll {sig : Signature} {m : Roster} {changes : List ClauseChange}
    (wf : m.WellFormed sig) (added : ∀ ch ∈ changes, ch.WellFormed sig) :
    (m.changeAll changes).2.WellFormed sig := by
  induction changes generalizing m with
  | nil => exact wf
  | cons ch rest ih =>
      obtain ⟨first, others⟩ := List.forall_mem_cons.1 added
      exact ih (wf.change first) others

end Roster

namespace SubsumptionIndex

variable {ix : SubsumptionIndex} {m : Roster} {sig : Signature} {c d q : Clause} {id : Nat}

/-- Make a change in an index. -/
def change (ix : SubsumptionIndex) : ClauseChange → Checked (ClauseReply × SubsumptionIndex)
  | .add c => do
    let (id, ix) ← ix.add c
    return (.added id, ix)
  | .remove id =>
    let (c, ix) := ix.remove id
    return (.removed c, ix)

/-- Make several changes, one after the other. -/
def changeAll : List ClauseChange → SubsumptionIndex →
    Checked (List ClauseReply × SubsumptionIndex)
  | [], ix => return ([], ix)
  | change :: rest, ix => do
    let (reply, ix) ← ix.change change
    let (replies, ix) ← changeAll rest ix
    return (reply :: replies, ix)

/-- The numbers that are listed under a vector. -/
def listed (ix : SubsumptionIndex) (v : List Nat) : List Nat :=
  (ix.vectors.find? v).getD []

/-- The index holds the clauses of a roster at their places, and lists them under their vectors. -/
structure Reflects (ix : SubsumptionIndex) (m : Roster) : Prop where
  size_eq : ix.clauses.size = m.next
  get?_eq : ∀ id, ix.get? id = m.clause id
  live_eq : ix.live = m.live.ncard
  sound : ix.vectors.Sound
  length_eq : ∀ n ∈ ix.vectors.length, n = ix.table.dimension
  nodup : ∀ v, (ix.listed v).Nodup
  mem_listed : ∀ v id, id ∈ ix.listed v ↔ ∃ c, m.clause id = some c ∧ ix.table.extract c = v

theorem reflects_empty (table : FeatureTable) : (empty table).Reflects .empty where
  size_eq := rfl
  get?_eq _ := rfl
  live_eq := by
    have none : Roster.empty.live = ∅ := Set.eq_empty_of_forall_notMem fun _ => Bool.false_ne_true
    rw [none, Set.ncard_empty]
    rfl
  sound := FeatureIndex.sound_empty
  length_eq := nofun
  nodup _ := List.nodup_nil
  mem_listed _ _ := iff_of_false List.not_mem_nil nofun

/-! ## Changes -/

namespace Reflects

theorem takes (reflects : ix.Reflects m) (c : Clause) : ix.vectors.Takes (ix.table.extract c) := by
  rw [FeatureIndex.Takes]
  cases length : ix.vectors.length with
  | none => rfl
  | some n => rw [Option.getD_some, FeatureTable.length_extract, reflects.length_eq n length]

/-- No clause is live under a number that was not given yet. -/
theorem clause_eq_none (reflects : ix.Reflects m) (beyond : m.next ≤ id) : m.clause id = none := by
  rw [← reflects.get?_eq, get?, Array.getElem?_eq_none (by rwa [reflects.size_eq])]
  rfl

theorem finite_live (reflects : ix.Reflects m) : m.live.Finite := by
  apply (Set.finite_lt_nat m.next).subset
  intro id alive
  by_contra beyond
  have gone := reflects.clause_eq_none (Nat.not_lt.1 beyond)
  rw [Roster.mem_live_iff, gone] at alive
  cases alive

/-- Adding a clause puts its number behind those listed under its vector. -/
theorem exists_add (reflects : ix.Reflects m) (c : Clause) :
    ∃ vectors, ix.add c = .ok (m.next, { ix with
        vectors, clauses := ix.clauses.push (some c), live := ix.live + 1 }) ∧
      vectors.Sound ∧ vectors.length = some ix.table.dimension ∧
      ∀ w, (vectors.find? w).getD [] =
        if w = ix.table.extract c then ix.listed w ++ [m.next] else ix.listed w := by
  obtain ⟨vectors, inserted, sound, length, slots⟩ := reflects.sound.insert (reflects.takes c)
  have present : (vectors.slot? (ix.table.extract c)).isSome = true := by
    rw [slots, if_pos rfl]
    rfl
  obtain ⟨sound', length', slots'⟩ := sound.fill present
    (ix.listed (ix.table.extract c) ++ [m.next])
  refine ⟨_, ?_, sound', ?_, fun w => ?_⟩
  · rw [SubsumptionIndex.add, inserted, reflects.size_eq]
    rfl
  · rw [length', length, FeatureTable.length_extract]
  · rw [FeatureIndex.find?, slots', slots]
    by_cases here : w = ix.table.extract c
    · subst here
      simp only [if_true, Option.join_some, Option.getD_some]
    · simp only [if_neg here]
      rfl

/-- Removing a live clause takes its number from those listed under its vector. -/
theorem exists_remove (reflects : ix.Reflects m) (alive : m.clause id = some c) :
    ∃ vectors, ix.remove id = (some c, { ix with
        vectors, clauses := ix.clauses.setIfInBounds id none, live := ix.live - 1 }) ∧
      vectors.Sound ∧ vectors.length = ix.vectors.length ∧
      ∀ w, (vectors.find? w).getD [] =
        if w = ix.table.extract c then (ix.listed w).filter (· != id) else ix.listed w := by
  rw [← reflects.get?_eq] at alive
  rw [SubsumptionIndex.remove, alive]
  refine ⟨_, rfl, ?_⟩
  split
  · next none =>
      obtain ⟨-, sound, length, slots⟩ := reflects.sound.remove (ix.table.extract c)
      refine ⟨sound, length, fun w => ?_⟩
      rw [FeatureIndex.find?, slots]
      by_cases here : w = ix.table.extract c
      · subst here
        rw [if_pos rfl, if_pos rfl]
        exact (List.isEmpty_iff.1 none).symm
      · rw [if_neg here, if_neg here]
        rfl
  · next some =>
      have present : (ix.vectors.slot? (ix.table.extract c)).isSome = true := by
        cases held : ix.vectors.slot? (ix.table.extract c) with
        | some payload => rfl
        | none =>
            rw [FeatureIndex.find?, held] at some
            exact absurd rfl some
      obtain ⟨sound, length, slots⟩ := reflects.sound.fill present
        ((ix.listed (ix.table.extract c)).filter (· != id))
      refine ⟨sound, length, fun w => ?_⟩
      rw [FeatureIndex.find?]
      have slot := slots w
      by_cases here : w = ix.table.extract c
      · subst here
        rw [if_pos rfl] at slot ⊢
        exact congrArg (fun slot => (Option.join slot).getD []) slot
      · rw [if_neg here] at slot ⊢
        exact congrArg (fun slot => (Option.join slot).getD []) slot

theorem add (reflects : ix.Reflects m) (c : Clause) :
    ∃ ix', ix.change (.add c) = .ok ((m.change (.add c)).1, ix') ∧
      ix'.Reflects (m.change (.add c)).2 := by
  obtain ⟨vectors, added, sound, length, listed⟩ := reflects.exists_add c
  have new : m.clause m.next = none := reflects.clause_eq_none (Nat.le_refl _)
  have unlisted (v : List Nat) : m.next ∉ ix.listed v := by
    intro h
    obtain ⟨c', alive, -⟩ := (reflects.mem_listed v m.next).1 h
    cases new.symm.trans alive
  refine ⟨_, by rw [SubsumptionIndex.change, added]; rfl, ?_, fun id => ?_, ?_, sound, ?_,
    fun w => ?_, fun w id => ?_⟩
  · rw [Array.size_push, reflects.size_eq]
    rfl
  · rw [Roster.clause_add, get?, Array.getElem?_push, reflects.size_eq]
    split
    · rfl
    · exact reflects.get?_eq id
  · have fresh : m.next ∉ m.live := by
      rw [Roster.mem_live_iff, new]
      exact Bool.false_ne_true
    rw [Roster.live_add, Set.ncard_insert_of_notMem fresh reflects.finite_live, reflects.live_eq]
  · intro n same
    exact (Option.some.inj (length.symm.trans same)).symm
  · rw [SubsumptionIndex.listed, listed]
    split
    · rw [← List.concat_eq_append]
      exact (reflects.nodup w).concat (unlisted w)
    · exact reflects.nodup w
  · rw [SubsumptionIndex.listed, listed, Roster.clause_add]
    have before := reflects.mem_listed w id
    by_cases here : id = m.next
    · subst here
      simp only [if_true, Option.some.injEq, exists_eq_left']
      split
      · next same => simp [same]
      · next other => exact iff_of_false (unlisted w) fun same => other same.symm
    · rw [if_neg here, ← before]
      split
      · simp [here]
      · rfl

theorem remove (reflects : ix.Reflects m) (id : Nat) :
    ∃ ix', ix.change (.remove id) = .ok ((m.change (.remove id)).1, ix') ∧
      ix'.Reflects (m.change (.remove id)).2 := by
  cases alive : m.clause id with
  | none =>
      have gone : ix.get? id = none := (reflects.get?_eq id).trans alive
      have same : (m.change (.remove id)).2 = m := by
        rw [Roster.change, ← alive, Function.update_eq_self]
      refine ⟨ix, ?_, by rwa [same]⟩
      rw [SubsumptionIndex.change, SubsumptionIndex.remove, gone, Roster.change, alive]
      rfl
  | some c =>
      obtain ⟨vectors, removed, sound, length, listed⟩ := reflects.exists_remove alive
      have listed' (w : List Nat) : (vectors.find? w).getD [] = (ix.listed w).filter (· != id) := by
        rw [listed]
        split
        · rfl
        · next other =>
            refine (List.filter_eq_self.2 fun k h => bne_iff_ne.2 ?_).symm
            rintro rfl
            obtain ⟨c', alive', same⟩ := (reflects.mem_listed w k).1 h
            cases alive.symm.trans alive'
            exact other same.symm
      refine ⟨_, by rw [SubsumptionIndex.change, removed, Roster.change, alive]; rfl, ?_,
        fun k => ?_, ?_, sound, ?_, fun w => ?_, fun w k => ?_⟩
      · rw [Array.size_setIfInBounds, reflects.size_eq]
        rfl
      · rw [Roster.clause_remove, get?, Array.getElem?_setIfInBounds]
        by_cases here : k = id
        · subst here
          rw [if_pos rfl, if_pos rfl]
          split <;> rfl
        · rw [if_neg here, if_neg (Ne.symm here)]
          exact reflects.get?_eq k
      · have member : id ∈ m.live := by
          rw [Roster.mem_live_iff, alive]
          rfl
        rw [Roster.live_remove, Set.ncard_sdiff_singleton_of_mem member, reflects.live_eq]
      · rw [length]
        exact reflects.length_eq
      · rw [SubsumptionIndex.listed, listed']
        exact (reflects.nodup w).filter _
      · rw [SubsumptionIndex.listed, listed', List.mem_filter, reflects.mem_listed,
          Roster.clause_remove]
        by_cases here : k = id <;> simp [here]

theorem change (reflects : ix.Reflects m) (ch : ClauseChange) :
    ∃ ix', ix.change ch = .ok ((m.change ch).1, ix') ∧ ix'.Reflects (m.change ch).2 := by
  cases ch with
  | add c => exact reflects.add c
  | remove id => exact reflects.remove id

theorem changeAll (reflects : ix.Reflects m) (changes : List ClauseChange) :
    ∃ ix', SubsumptionIndex.changeAll changes ix = .ok ((m.changeAll changes).1, ix') ∧
      ix'.Reflects (m.changeAll changes).2 := by
  induction changes generalizing ix m with
  | nil => exact ⟨ix, rfl, reflects⟩
  | cons ch rest ih =>
      obtain ⟨ix', done, reflects'⟩ := reflects.change ch
      obtain ⟨ix'', later, reflects''⟩ := ih reflects'
      refine ⟨ix'', ?_, reflects''⟩
      rw [SubsumptionIndex.changeAll, done]
      simp only [bind, Except.bind, later]
      rfl

/-! ## Searches -/

/-- The numbers under the vectors within a bound are those of the live clauses whose vectors are,
and none comes twice. -/
theorem exists_select (reflects : ix.Reflects m) (b : Bound) (q : Clause) :
    ∃ lists, ix.vectors.select b (ix.table.extract q) = .ok lists ∧ lists.flatten.Nodup ∧
      ∀ id, id ∈ lists.flatten ↔
        ∃ c, m.clause id = some c ∧ b.Within (ix.table.extract q) (ix.table.extract c) := by
  have listed {v : List Nat} {ids : List Nat} (entry : (v, ids) ∈ ix.vectors.entries) :
      ix.listed v = ids := by
    rw [SubsumptionIndex.listed, reflects.sound.mem_entries_iff.1 entry, Option.getD_some]
  refine ⟨_, reflects.sound.select_eq (reflects.takes q) b, List.nodup_flatten.2 ⟨?_, ?_⟩, ?_⟩
  · intro ids h
    obtain ⟨⟨v, ids⟩, entry, rfl⟩ := List.mem_map.1 h
    rw [← listed (List.mem_filter.1 entry).1]
    exact reflects.nodup v
  -- a clause has one vector, so its number is listed under no other
  · refine List.pairwise_map.2 (List.Pairwise.imp_of_mem ?_
      ((List.pairwise_map.1 reflects.sound.nodup_entries).filter _))
    rintro ⟨v, ids⟩ ⟨v', ids'⟩ entry entry' distinct id h h'
    rw [← listed (List.mem_filter.1 entry).1, reflects.mem_listed] at h
    rw [← listed (List.mem_filter.1 entry').1, reflects.mem_listed] at h'
    obtain ⟨c, alive, rfl⟩ := h
    obtain ⟨c', alive', rfl⟩ := h'
    cases alive.symm.trans alive'
    exact distinct rfl
  · intro id
    rw [List.mem_flatten]
    constructor
    · rintro ⟨ids, h, member⟩
      obtain ⟨⟨v, ids⟩, entry, rfl⟩ := List.mem_map.1 h
      obtain ⟨entry, within⟩ := List.mem_filter.1 entry
      rw [← listed entry, reflects.mem_listed] at member
      obtain ⟨c, alive, rfl⟩ := member
      exact ⟨c, alive, of_decide_eq_true within⟩
    · rintro ⟨c, alive, within⟩
      have member := (reflects.mem_listed _ id).2 ⟨c, alive, rfl⟩
      rw [SubsumptionIndex.listed] at member
      cases found : ix.vectors.find? (ix.table.extract c) with
      | none =>
          rw [found] at member
          cases member
      | some ids =>
          rw [found] at member
          have entry := reflects.sound.mem_entries_iff.2 found
          exact ⟨ids,
            List.mem_map.2 ⟨_, List.mem_filter.2 ⟨entry, decide_eq_true within⟩, rfl⟩, member⟩

/-- The candidates are the live clauses whose vectors are within the bound. -/
theorem exists_candidates (reflects : ix.Reflects m) (b : Bound) (q : Clause) :
    ∃ found, ix.candidates b q = .ok found ∧ (found.map (·.1)).Nodup ∧
      ∀ id c, (id, c) ∈ found ↔
        m.clause id = some c ∧ b.Within (ix.table.extract q) (ix.table.extract c) := by
  obtain ⟨lists, selected, nodup, members⟩ := reflects.exists_select b q
  refine ⟨lists.flatten.filterMap fun id => (ix.get? id).map (id, ·), ?_, ?_, fun id c => ?_⟩
  · rw [candidates, selected]
    rfl
  · rw [List.map_filterMap]
    refine nodup.filterMap fun id id' k h h' => ?_
    simp only [Option.map_map, Option.mem_def, Option.map_eq_some_iff] at h h'
    obtain ⟨_, -, rfl⟩ := h
    obtain ⟨_, -, rfl⟩ := h'
    rfl
  · simp only [List.mem_filterMap, members, reflects.get?_eq, Option.map_eq_some_iff,
      Prod.mk.injEq]
    constructor
    · rintro ⟨_, ⟨c', alive', within⟩, c'', alive, rfl, rfl⟩
      cases alive.symm.trans alive'
      exact ⟨alive, within⟩
    · rintro ⟨alive, within⟩
      exact ⟨id, ⟨c, alive, within⟩, c, alive, rfl, rfl⟩

end Reflects

/-- The first candidate that subsumes a clause is found, since a failed test leaves the ledger
alone. -/
theorem firstSubsuming_eq (q : Clause) (cands : List (Nat × Clause)) (σ : TreeMatcher) :
    firstSubsuming q cands σ =
      (cands.find? fun e => (e.2.attemptSubsumption q σ).1).map (·.1) := by
  induction cands with
  | nil => rfl
  | cons e cands ih =>
      obtain ⟨id, stored⟩ := e
      rw [firstSubsuming, List.find?_cons]
      rcases h : stored.attemptSubsumption q σ with ⟨subsumed, τ⟩
      cases subsumed with
      | true => rfl
      | false =>
          cases h.symm.trans (Clause.attemptSubsumption_eq_of_failure (congrArg Prod.fst h))
          exact ih

theorem allSubsumed_eq (q : Clause) (cands : List (Nat × Clause)) :
    allSubsumed q cands .empty =
      (cands.filter fun e => (q.attemptSubsumption e.2 .empty).1).map (·.1) := by
  induction cands with
  | nil => rfl
  | cons e cands ih =>
      obtain ⟨id, stored⟩ := e
      rw [allSubsumed, ih, List.filter_cons]
      rcases q.attemptSubsumption stored .empty with ⟨_ | _, τ⟩ <;> rfl

/-- A subsumed clause is within the bounds that the searches use. -/
theorem within_of_subsumes (t : FeatureTable) (grown : sig.Grown) (wfC : c.WellFormed sig)
    (wfD : d.WellFormed sig) {σ : TreeMatcher} (subsumes : (c.attemptSubsumption d σ).1 = true) :
    Bound.atLeast.Within (t.extract c) (t.extract d) ∧
      Bound.atMost.Within (t.extract d) (t.extract c) := by
  obtain ⟨ws, ω, maps⟩ := Clause.exists_maps_of_attemptSubsumption subsumes
  have below := t.extract_le_of_maps grown wfC wfD maps
  exact ⟨below.imp fun _ _ => decide_eq_true, .flip (below.imp fun _ _ => decide_eq_true)⟩

/-- The index answers every question about a roster as the subsumption test from the empty ledger
decides it. -/
structure Exact (ix : SubsumptionIndex) (sig : Signature) (m : Roster) : Prop where
  get?_eq : ∀ id, ix.get? id = m.clause id
  finite_live : m.live.Finite
  live_eq : ix.live = m.live.ncard
  findSubsumed : ∀ q : Clause, q.WellFormed sig → ∃ ids, ix.findSubsumed q = .ok ids ∧ ids.Nodup ∧
    ∀ id, id ∈ ids ↔ ∃ d, m.clause id = some d ∧ (q.attemptSubsumption d .empty).1 = true
  findSubsumer : ∀ q : Clause, q.WellFormed sig → ∃ answer, ix.findSubsumer q = .ok answer ∧
    (∀ id, answer = some id →
      ∃ d, m.clause id = some d ∧ (d.attemptSubsumption q .empty).1 = true) ∧
    (answer = none → ∀ id d, m.clause id = some d → (d.attemptSubsumption q .empty).1 = false)

namespace Reflects

theorem exists_findSubsumed (reflects : ix.Reflects m) (grown : sig.Grown) (wf : m.WellFormed sig)
    (wfQ : q.WellFormed sig) :
    ∃ ids, ix.findSubsumed q = .ok ids ∧ ids.Nodup ∧
      ∀ id, id ∈ ids ↔ ∃ d, m.clause id = some d ∧ (q.attemptSubsumption d .empty).1 = true := by
  obtain ⟨found, answered, nodup, members⟩ := reflects.exists_candidates .atLeast q
  refine ⟨_, by rw [findSubsumed, answered]; rfl, ?_, fun id => ?_⟩
  · rw [allSubsumed_eq]
    exact nodup.sublist (List.filter_sublist.map _)
  · rw [allSubsumed_eq, List.mem_map]
    constructor
    · rintro ⟨⟨id, d⟩, h, rfl⟩
      obtain ⟨candidate, subsumed⟩ := List.mem_filter.1 h
      exact ⟨d, ((members id d).1 candidate).1, subsumed⟩
    · rintro ⟨d, alive, subsumed⟩
      have within := (within_of_subsumes ix.table grown wfQ (wf id d alive) subsumed).1
      exact ⟨(id, d), List.mem_filter.2 ⟨(members id d).2 ⟨alive, within⟩, subsumed⟩, rfl⟩

theorem exists_findSubsumer (reflects : ix.Reflects m) (grown : sig.Grown) (wf : m.WellFormed sig)
    (wfQ : q.WellFormed sig) :
    ∃ answer, ix.findSubsumer q = .ok answer ∧
      (∀ id, answer = some id →
        ∃ d, m.clause id = some d ∧ (d.attemptSubsumption q .empty).1 = true) ∧
      (answer = none →
        ∀ id d, m.clause id = some d → (d.attemptSubsumption q .empty).1 = false) := by
  obtain ⟨found, answered, -, members⟩ := reflects.exists_candidates .atMost q
  refine ⟨_, by rw [findSubsumer, answered]; rfl, fun id first => ?_, fun none id d alive => ?_⟩
  · rw [firstSubsuming_eq, Option.map_eq_some_iff] at first
    obtain ⟨⟨id, d⟩, first, rfl⟩ := first
    have subsumes : (d.attemptSubsumption q .empty).1 = true := by
      simpa only using List.find?_some first
    exact ⟨d, ((members id d).1 (List.mem_of_find?_eq_some first)).1, subsumes⟩
  · rw [firstSubsuming_eq, Option.map_eq_none_iff, List.find?_eq_none] at none
    by_contra subsumes
    rw [Bool.not_eq_false] at subsumes
    have within := (within_of_subsumes ix.table grown (wf id d alive) wfQ subsumes).2
    exact none (id, d) ((members id d).2 ⟨alive, within⟩) subsumes

theorem exact (reflects : ix.Reflects m) (grown : sig.Grown) (wf : m.WellFormed sig) :
    ix.Exact sig m where
  get?_eq := reflects.get?_eq
  finite_live := reflects.finite_live
  live_eq := reflects.live_eq
  findSubsumed _ := reflects.exists_findSubsumed grown wf
  findSubsumer _ := reflects.exists_findSubsumer grown wf

end Reflects

/-- After any changes with well-formed clauses, which all succeed and answer as the roster does, the
index answers every well-formed clause exactly. -/
theorem changeAll_exact (table : FeatureTable) (grown : sig.Grown) {changes : List ClauseChange}
    (wf : ∀ ch ∈ changes, ch.WellFormed sig) :
    ∃ ix, changeAll changes (empty table) = .ok ((Roster.empty.changeAll changes).1, ix) ∧
      ix.Exact sig (Roster.empty.changeAll changes).2 := by
  obtain ⟨ix, changed, reflects⟩ := (reflects_empty table).changeAll changes
  exact ⟨ix, changed, reflects.exact grown ((Roster.wellFormed_empty sig).changeAll wf)⟩

/-- Of `p(X0)`, `p(a)`, `p(a) | X0 = a` and again `p(a)`, the second is removed and then asked to be
removed again. The fourth has its vector and stays. -/
theorem changeAll_exact_removed :
    let sig := ((Signature.initial.internConstant "a").2.internPredicate "p" 1).2
    let x : Term := .var ⟨0, 0⟩
    let a : Term := .app .constant ⟨8, .constant, 0⟩ []
    let p (t : Term) : Literal := ⟨.app .predicate ⟨9, .predicate, 1⟩ [t], true⟩
    let table := FeatureTable.ofSymbols [] [⟨8, .constant, 0⟩]
    let changes : List ClauseChange := [.add ⟨[p x]⟩, .add ⟨[p a]⟩,
      .add ⟨[p a, ⟨.equality x a, true⟩]⟩, .add ⟨[p a]⟩, .remove 1, .remove 1]
    (sig.Grown ∧ ∀ ch ∈ changes, ch.WellFormed sig) ∧
      ((changeAll changes (empty table)).bind fun reached => reached.2.findSubsumed ⟨[p x]⟩) =
        .ok [0, 3, 2] ∧
      ∃ ix, changeAll changes (empty table) = .ok ((Roster.empty.changeAll changes).1, ix) ∧
        ix.Exact sig (Roster.empty.changeAll changes).2 := by
  intro sig x a p table changes
  have grown : sig.Grown := .predicate "p" 1 (.constant "a" .initial)
  have wf : ∀ ch ∈ changes, ch.WellFormed sig := by decide +kernel
  exact ⟨⟨grown, wf⟩, by decide +kernel, changeAll_exact table grown wf⟩

end SubsumptionIndex

end SaturationCore
