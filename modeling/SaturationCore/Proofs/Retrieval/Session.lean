/-
# Sessions of several searches

Several searches of one index are kept under names. In every step of a session a search is put
to the index, called, given up or dropped, under one of several ledgers, or a change of the
index is attempted. A step that is refused leaves everything as it is.

Searches that share a ledger have to be used like brackets. A nesting notes for every ledger
which searches were put under it and still have bindings there, the newest first. Only the
newest may be called, and only the newest that was not dropped may be given up or be put again.
A search that was dropped stands for its bindings until one below it is given up. What happens
under other ledgers does not matter.
-/
import Mathlib.Data.Finset.Card
import Mathlib.Logic.Function.Basic
import SaturationCore.DiscriminationTree.Retrieval
import SaturationCore.Proofs.DiscriminationTree.History

namespace SaturationCore

variable {α : Type}

/-- A step of a session. Searches and ledgers have numbers for names. -/
inductive SessionStep (α : Type) where
  | reset (k l : Nat) (query : Subterm) (c : Cluster)
  | next (k l : Nat)
  | finish (k l : Nat)
  | drop (k : Nat)
  | change (change : Change α)

/-- What a step answers. A call answers an object, if one is left, and the ledger. -/
inductive SessionReply (α : Type) where
  | refused (fault : Fault)
  | called (object : Option α) (σ : Unifier)
  | changed (count : Option Nat)
  | done

namespace SessionStep

/-- Whether the step calls a search. -/
def calls (k : Nat) : SessionStep α → Bool
  | next k' _ => k' == k
  | _ => false

/-- The step puts a search to the index, gives it up or drops it. -/
def Settles (k : Nat) : SessionStep α → Prop
  | reset k' _ _ _ | finish k' _ | drop k' => k' = k
  | next _ _ | change _ => False

end SessionStep

namespace Retrieval

/-- What a call answers, and the search and the ledger after it. -/
def call (r : Retrieval α) (σ : Unifier) : SessionReply α × Retrieval α × Unifier :=
  match r.next σ with
  | .error fault => (.refused fault, r, σ)
  | .ok (object, r, σ) => (.called object σ, r, σ)

/-- What the first calls of a search answer when it is run alone. -/
def alone (r : Retrieval α) (σ : Unifier) : (calls : Nat) → List (SessionReply α)
  | 0 => []
  | calls + 1 => (r.call σ).1 :: alone (r.call σ).2.1 (r.call σ).2.2 calls

end Retrieval

/-- An index with searches of it and ledgers. -/
structure Session (α : Type) where
  index : Index α
  search : Nat → Retrieval α
  ledger : Nat → Unifier

namespace Session

/-- A session of an index, with nothing in use and nothing bound. -/
def new (ix : Index α) : Session α := ⟨ix, fun _ => .idle, fun _ => .empty⟩

/-- What a step answers, and the session after it. -/
def step (s : Session α) : SessionStep α → SessionReply α × Session α
  | .reset k l query c =>
    match (s.search k).reset s.index query c (s.ledger l) with
    | .error fault => (.refused fault, s)
    | .ok (r, ix, σ) => (.done, ⟨ix, Function.update s.search k r, Function.update s.ledger l σ⟩)
  | .next k l =>
    let (reply, r, σ) := (s.search k).call (s.ledger l)
    (reply, ⟨s.index, Function.update s.search k r, Function.update s.ledger l σ⟩)
  | .finish k l =>
    match (s.search k).finish s.index (s.ledger l) with
    | .error fault => (.refused fault, s)
    | .ok (r, ix, σ) => (.done, ⟨ix, Function.update s.search k r, Function.update s.ledger l σ⟩)
  | .drop k =>
    (.done, ⟨(s.search k).release s.index, Function.update s.search k .idle, s.ledger⟩)
  | .change change =>
    match change.perform s.index with
    | .error fault => (.refused fault, s)
    | .ok (count, ix) => (.changed count, { s with index := ix })

/-- The session after several steps. -/
def run (s : Session α) (steps : List (SessionStep α)) : Session α :=
  steps.foldl (fun s st => (s.step st).2) s

/-- What is answered to the calls of one search in several steps. -/
def answersTo (k : Nat) (s : Session α) : List (SessionStep α) → List (SessionReply α)
  | [] => []
  | st :: rest =>
    if st.calls k then (s.step st).1 :: answersTo k (s.step st).2 rest
    else answersTo k (s.step st).2 rest

/-- No query that is put in some steps is refused. -/
def Accepts (s : Session α) : List (SessionStep α) → Prop
  | [] => True
  | st :: rest =>
    (∀ k l query c, st = .reset k l query c → (s.step st).1 = .done) ∧ Accepts (s.step st).2 rest

end Session

/-- The searches in use, and for every ledger those that were put under it and not given up, the
newest first, with gaps for those that were dropped. -/
structure Nesting where
  inUse : Finset Nat
  stack : Nat → List (Option Nat)

namespace Nesting

/-- Nothing is in use. -/
def empty : Nesting := ⟨∅, fun _ => []⟩

/-- What is below a search. -/
def below (k : Nat) : List (Option Nat) → List (Option Nat)
  | [] => []
  | o :: rest => if o = some k then rest else below k rest

/-- What is left of a search that is dropped. -/
def gap (k : Nat) (o : Option Nat) : Option Nat :=
  if o = some k then none else o

/-- What stays on the stack of a ledger when a search that was put under it is given up. -/
def under (nest : Nesting) (k l : Nat) : List (Option Nat) :=
  if k ∈ nest.inUse then below k (nest.stack l) else nest.stack l

/-- The nesting after a step that is not refused. -/
def after (nest : Nesting) : SessionStep α → Nesting
  | .reset k l _ _ =>
    ⟨insert k nest.inUse, Function.update nest.stack l (some k :: nest.under k l)⟩
  | .finish k l => ⟨nest.inUse.erase k, Function.update nest.stack l (nest.under k l)⟩
  | .drop k => ⟨nest.inUse.erase k, fun l => (nest.stack l).map (gap k)⟩
  | .next _ _ | .change _ => nest

/-- A search in use is called when it is the newest under the ledger, and given up or put again
when all newer ones were dropped. -/
def Allows (nest : Nesting) : SessionStep α → Prop
  | .reset k l _ _ | .finish k l =>
    k ∈ nest.inUse → (nest.stack l).find? (·.isSome) = some (some k)
  | .next k l => k ∈ nest.inUse → (nest.stack l).head? = some (some k)
  | .drop _ | .change _ => True

/-- The nesting after several steps. -/
def afterAll (nest : Nesting) (steps : List (SessionStep α)) : Nesting :=
  steps.foldl after nest

/-- All steps are allowed where they are made. -/
def InOrder (nest : Nesting) : List (SessionStep α) → Prop
  | [] => True
  | st :: rest => nest.Allows st ∧ InOrder (nest.after st) rest

instance decidableAllows (nest : Nesting) : (st : SessionStep α) → Decidable (nest.Allows st)
  | .reset k l _ _ | .finish k l =>
    inferInstanceAs (Decidable (k ∈ nest.inUse → (nest.stack l).find? (·.isSome) = some (some k)))
  | .next k l => inferInstanceAs (Decidable (k ∈ nest.inUse → (nest.stack l).head? = some (some k)))
  | .drop _ | .change _ => inferInstanceAs (Decidable True)

instance decidableInOrder : (nest : Nesting) → (steps : List (SessionStep α)) →
    Decidable (nest.InOrder steps)
  | _, [] => inferInstanceAs (Decidable True)
  | nest, st :: rest =>
    have := decidableInOrder (nest.after st) rest
    inferInstanceAs (Decidable (nest.Allows st ∧ InOrder (nest.after st) rest))

variable {k k' : Nat} {stack : List (Option Nat)}

theorem below_subset (k : Nat) (stack : List (Option Nat)) : below k stack ⊆ stack := by
  induction stack with
  | nil => exact List.Subset.refl _
  | cons o rest ih =>
      rw [below]
      split
      · exact List.subset_cons_self _ _
      · exact List.Subset.trans ih (List.subset_cons_self _ _)

theorem under_subset (nest : Nesting) (k l : Nat) : nest.under k l ⊆ nest.stack l := by
  rw [under]
  split
  · exact below_subset k _
  · exact List.Subset.refl _

/-- Dropping a search takes its name off a stack, and no other one. -/
theorem mem_map_gap : some k' ∈ stack.map (gap k) ↔ some k' ∈ stack ∧ k' ≠ k := by
  rw [List.mem_map]
  constructor
  · rintro ⟨o, here, reads⟩
    rw [gap] at reads
    split at reads
    · cases reads
    · next other =>
        subst reads
        exact ⟨here, fun same => other (congrArg some same)⟩
  · rintro ⟨here, other⟩
    exact ⟨some k', here, if_neg fun same => other (Option.some.inj same)⟩

end Nesting

end SaturationCore
