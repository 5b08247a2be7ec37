/-
# Searches do not disturb each other

A search looks at its own bindings only, and every call leaves an extension of the ledger that
it was put under. So searches under one ledger are stacked: each was put under what the next
older one left of the ledger, and giving up one of them leads back to just that.

Used like brackets, searches therefore answer all calls as if they were alone, whatever is done
under other ledgers or with newer searches in between. And the index is held open by just as
many searches as are in use, so that it refuses to change as long as there is any.
-/
import SaturationCore.Proofs.DiscriminationTree.Canonical
import SaturationCore.Proofs.Ledger.Reading
import SaturationCore.Proofs.Retrieval.Extension
import SaturationCore.Proofs.Retrieval.Session

namespace SaturationCore

variable {α : Type} {σ τ υ : Unifier} {ix held : Index α} {r asked : Retrieval α} {query : Subterm}
  {c : Cluster}

namespace Retrieval

/-! ## One search -/

theorem Since.later (since : Since σ r τ) (grew : υ.Extends τ) : Since σ r υ :=
  ⟨since.isOpen, since.active, since.start_eq, grew.trans since.extended, since.above⟩

theorem Since.call (since : Since σ r τ) : Since σ (r.call τ).2.1 (r.call τ).2.2 := by
  rw [Retrieval.call]
  cases given : r.next τ with
  | error fault => exact since
  | ok result => exact since.next given

/-- Putting an open search to an index is giving it up and putting a new one. -/
theorem Since.reset_eq (since : Since σ r τ) (ix : Index α) (query : Subterm) (c : Cluster) :
    r.reset ix query c τ = idle.reset (r.release ix) query c σ := by
  rw [Retrieval.reset, if_pos since.isOpen, since.finish, idle_reset]
  rfl

theorem since_of_idle_reset (put : idle.reset ix query c σ = .ok (asked, held, τ)) :
    τ = σ ∧ held = { ix with openRetrievals := ix.openRetrievals + 1 } ∧ Since σ asked σ := by
  rw [idle_reset] at put
  obtain ⟨_, -, put⟩ := bind_eq_ok_iff.1 put
  obtain ⟨roots, -, put⟩ := bind_eq_ok_iff.1 put
  cases put
  exact ⟨rfl, rfl, .asking ix query c σ roots⟩

/-- A search does not depend on how many others there are. -/
theorem idle_reset_of_release (put : idle.reset (r.release ix) query c σ = .ok (asked, held, σ)) :
    idle.reset ix query c σ =
      .ok (asked, { ix with openRetrievals := ix.openRetrievals + 1 }, σ) := by
  rw [release] at put
  split at put
  · rw [idle_reset] at put ⊢
    obtain ⟨_, plain, put⟩ := bind_eq_ok_iff.1 put
    obtain ⟨roots, below, put⟩ := bind_eq_ok_iff.1 put
    cases put
    have same : rootsBelow ix c (σ.deref query).head = .ok roots := by
      rw [← below]
      cases (σ.deref query).head <;> rfl
    rw [plain, same]
    rfl
  · rw [put, (since_of_idle_reset put).2.1]

end Retrieval

open Retrieval (Since)

/-! ## Searches under one ledger -/

variable {search search' : Nat → Retrieval α} {left left' : Nat → Unifier}
  {stack : List (Option Nat)} {k : Nat}

/-- Each search was put under what the next older one left, and dropped ones under what they have
extended. -/
inductive Stacked (search : Nat → Retrieval α) (left : Nat → Unifier) :
    List (Option Nat) → Unifier → Prop where
  | bottom (τ : Unifier) : Stacked search left [] τ
  | search {k : Nat} {rest : List (Option Nat)} {σ : Unifier} : Since σ (search k) (left k) →
      some k ∉ rest → Stacked search left rest σ → Stacked search left (some k :: rest) (left k)
  | dropped {rest : List (Option Nat)} {σ τ : Unifier} : τ.Extends σ → Stacked search left rest σ →
      Stacked search left (none :: rest) τ

namespace Stacked

theorem congr (stacked : Stacked search left stack τ)
    (same : ∀ k, some k ∈ stack → search' k = search k ∧ left' k = left k) :
    Stacked search' left' stack τ := by
  induction stacked with
  | bottom τ => exact .bottom τ
  | @search k rest σ since once _ ih =>
      obtain ⟨sameSearch, sameLeft⟩ := same k List.mem_cons_self
      rw [← sameLeft]
      refine .search ?_ once (ih fun k h => same k (List.mem_cons_of_mem _ h))
      rwa [sameSearch, sameLeft]
  | dropped grew _ ih => exact .dropped grew (ih fun k h => same k (List.mem_cons_of_mem _ h))

theorem update_search (stacked : Stacked search left stack τ) (outside : some k ∉ stack)
    (r : Retrieval α) : Stacked (Function.update search k r) left stack τ :=
  stacked.congr fun _ h => ⟨Function.update_of_ne (fun same => outside (by rwa [← same])) _ _, rfl⟩

theorem update_left (stacked : Stacked search left stack τ) (outside : some k ∉ stack)
    (υ : Unifier) : Stacked search (Function.update left k υ) stack τ :=
  stacked.congr fun _ h => ⟨rfl, Function.update_of_ne (fun same => outside (by rwa [← same])) _ _⟩

/-- A search is put on top of a stack, or called there. -/
theorem push (stacked : Stacked search left stack σ) (once : some k ∉ stack)
    (since : Since σ r υ) :
    Stacked (Function.update search k r) (Function.update left k υ) (some k :: stack) υ := by
  have top : Stacked (Function.update search k r) (Function.update left k υ) (some k :: stack)
      (Function.update left k υ k) := by
    refine .search ?_ once ((stacked.update_search once r).update_left once υ)
    rwa [Function.update_self, Function.update_self]
  rwa [Function.update_self] at top

theorem isOpen (stacked : Stacked search left stack τ) (here : some k ∈ stack) :
    (search k).isOpen = true := by
  induction stacked with
  | bottom τ => cases here
  | search since _ _ ih =>
      rcases List.mem_cons.1 here with ⟨⟨⟩⟩ | here
      · exact since.isOpen
      · exact ih here
  | dropped _ _ ih => exact ih ((List.mem_cons.1 here).resolve_left nofun)

/-- The newest search left the ledger as it is. -/
theorem newest (stacked : Stacked search left stack τ) (head : stack.head? = some (some k)) :
    τ = left k ∧ ∃ rest σ, stack = some k :: rest ∧ Since σ (search k) τ ∧ some k ∉ rest ∧
      Stacked search left rest σ := by
  cases stacked with
  | bottom τ => cases head
  | search since once below =>
      cases head
      exact ⟨rfl, _, _, rfl, since, once, below⟩
  | dropped grew below => cases head

/-- The newest search that was not dropped can be given up. -/
theorem givenUp (stacked : Stacked search left stack τ)
    (newest : stack.find? (·.isSome) = some (some k)) :
    ∃ σ, Since σ (search k) τ ∧ some k ∉ Nesting.below k stack ∧
      Stacked search left (Nesting.below k stack) σ := by
  induction stacked with
  | bottom τ => cases newest
  | search since once rest =>
      cases newest
      rw [Nesting.below, if_pos rfl]
      exact ⟨_, since, once, rest⟩
  | dropped grew rest ih =>
      obtain ⟨σ, since, once, rest⟩ := ih newest
      rw [Nesting.below, if_neg (Option.some_ne_none _).symm]
      exact ⟨σ, since.later grew, once, rest⟩

theorem drop (stacked : Stacked search left stack τ) (r : Retrieval α) :
    Stacked (Function.update search k r) left (stack.map (Nesting.gap k)) τ := by
  have gone (stack : List (Option Nat)) : some k ∉ stack.map (Nesting.gap k) :=
    fun h => (Nesting.mem_map_gap.1 h).2 rfl
  refine update_search ?_ (gone stack) r
  induction stacked with
  | bottom τ => exact .bottom τ
  | @search j rest σ since once _ ih =>
      rw [List.map_cons, Nesting.gap]
      split
      · exact .dropped since.extended ih
      · exact .search since (fun h => once (Nesting.mem_map_gap.1 h).1) ih
  | dropped grew _ ih => exact .dropped grew ih

end Stacked

/-! ## The steps of a session -/

namespace SessionStep

variable {st : SessionStep α}

theorem exists_of_calls (calls : st.calls k) : ∃ l, st = .next k l := by
  cases st with
  | next k' l => exact ⟨l, congrArg (next · l) (eq_of_beq calls)⟩
  | _ => cases calls

/-- What every search left of its ledger, after a step. -/
def leaves (left : Nat → Unifier) (s' : Session α) : SessionStep α → Nat → Unifier
  | reset k l _ _ | next k l => Function.update left k (s'.ledger l)
  | finish _ _ | drop _ | change _ => left

theorem leaves_eq {s' : Session α} (unsettled : ¬ st.Settles k) (silent : ¬ st.calls k) :
    st.leaves left s' k = left k := by
  cases st with
  | reset k' l query c => exact Function.update_of_ne (Ne.symm unsettled) _ _
  | next k' l => exact Function.update_of_ne (fun same => silent (beq_iff_eq.2 same.symm)) _ _
  | _ => rfl

end SessionStep

/-- A step for another search leaves a search as it is. -/
theorem Session.search_step {s : Session α} {st : SessionStep α} (unsettled : ¬ st.Settles k)
    (silent : ¬ st.calls k) : (s.step st).2.search k = s.search k := by
  cases st with
  | reset k' l query c =>
      rw [step]
      split
      · rfl
      · exact Function.update_of_ne (Ne.symm unsettled) _ _
  | next k' l => exact Function.update_of_ne (fun same => silent (beq_iff_eq.2 same.symm)) _ _
  | finish k' l =>
      rw [step]
      split
      · rfl
      · exact Function.update_of_ne (Ne.symm unsettled) _ _
  | drop k' => exact Function.update_of_ne (Ne.symm unsettled) _ _
  | change change =>
      rw [step]
      split <;> rfl

theorem Nesting.mem_inUse_after {nest : Nesting} {st : SessionStep α} (h : k ∈ nest.inUse)
    (unsettled : ¬ st.Settles k) : k ∈ (nest.after st).inUse := by
  cases st with
  | reset k' l query c => exact Finset.mem_insert_of_mem h
  | finish k' l => exact Finset.mem_erase.2 ⟨Ne.symm unsettled, h⟩
  | drop k' => exact Finset.mem_erase.2 ⟨Ne.symm unsettled, h⟩
  | _ => exact h

/-- The searches under each ledger are stacked, each under one ledger only, and all searches that
are not in use are idle. -/
structure Orderly (s : Session α) (nest : Nesting) (left : Nat → Unifier) : Prop where
  stacked : ∀ l, Stacked s.search left (nest.stack l) (s.ledger l)
  apart : ∀ k l l', some k ∈ nest.stack l → some k ∈ nest.stack l' → l = l'
  active : ∀ k ∈ nest.inUse, (s.search k).isOpen = true
  idle : ∀ k ∉ nest.inUse, s.search k = .idle
  count : s.index.openRetrievals = nest.inUse.card

/-- The ledger before a search was put under it, which giving up the search leads back to. -/
structure Beneath (s : Session α) (nest : Nesting) (left : Nat → Unifier) (k l : Nat) (σ : Unifier) :
    Prop where
  stacked : Stacked s.search left (nest.under k l) σ
  once : some k ∉ nest.under k l
  elsewhere : ∀ l' ≠ l, some k ∉ nest.stack l'
  finish_eq : (s.search k).finish s.index (s.ledger l) =
    .ok (.idle, (s.search k).release s.index, σ)
  reset_eq : ∀ query c, (s.search k).reset s.index query c (s.ledger l) =
    Retrieval.idle.reset ((s.search k).release s.index) query c σ
  eq_of_notMem : k ∉ nest.inUse → σ = s.ledger l

variable {s : Session α} {nest : Nesting} {l : Nat}

theorem Beneath.put (beneath : Beneath s nest left k l σ)
    (accepted : (s.step (.reset k l query c)).1 = .done) :
    ∃ asked held, Retrieval.idle.reset ((s.search k).release s.index) query c σ =
        .ok (asked, held, σ) ∧
      held.openRetrievals = ((s.search k).release s.index).openRetrievals + 1 ∧
      Since σ asked σ ∧
      (s.step (.reset k l query c)).2 =
        ⟨held, Function.update s.search k asked, Function.update s.ledger l σ⟩ := by
  rw [Session.step, beneath.reset_eq] at accepted ⊢
  cases put : Retrieval.idle.reset ((s.search k).release s.index) query c σ with
  | error fault =>
      rw [put] at accepted
      cases accepted
  | ok result =>
      obtain ⟨asked, held, υ⟩ := result
      obtain ⟨rfl, rfl, since⟩ := Retrieval.since_of_idle_reset put
      exact ⟨asked, _, rfl, rfl, since, rfl⟩

namespace Orderly

/-- At first nothing is in use. -/
theorem start (fresh : ∀ k, s.search k = .idle) (closed : s.index.openRetrievals = 0) :
    Orderly s .empty s.ledger where
  stacked l := .bottom (s.ledger l)
  apart _ _ _ := nofun
  active _ := nofun
  idle k _ := fresh k
  count := closed

theorem mem_inUse (orderly : Orderly s nest left) (here : some k ∈ nest.stack l) :
    k ∈ nest.inUse := by
  by_contra outside
  have isOpen := (orderly.stacked l).isOpen here
  rw [orderly.idle k outside] at isOpen
  cases isOpen

theorem count_release (orderly : Orderly s nest left) (k : Nat) :
    ((s.search k).release s.index).openRetrievals = (nest.inUse.erase k).card := by
  by_cases h : k ∈ nest.inUse
  · rw [Retrieval.release, if_pos (orderly.active k h), Finset.card_erase_of_mem h,
      ← orderly.count]
  · rw [Retrieval.release, orderly.idle k h, Finset.erase_eq_of_notMem h, ← orderly.count]
    rfl

theorem beneath (orderly : Orderly s nest left)
    (allowed : k ∈ nest.inUse → (nest.stack l).find? (·.isSome) = some (some k)) :
    ∃ σ, Beneath s nest left k l σ := by
  by_cases h : k ∈ nest.inUse
  · obtain ⟨σ, since, once, stacked⟩ := (orderly.stacked l).givenUp (allowed h)
    have here : some k ∈ nest.stack l := List.mem_of_find?_eq_some (allowed h)
    have under : nest.under k l = Nesting.below k (nest.stack l) := if_pos h
    exact ⟨σ, under ▸ stacked, under ▸ once, fun l' ne there => ne (orderly.apart k l' l there here),
      since.finish _, since.reset_eq _, (absurd h ·)⟩
  · have under : nest.under k l = nest.stack l := if_neg h
    have outside (l : Nat) : some k ∉ nest.stack l := fun here => h (orderly.mem_inUse here)
    refine ⟨s.ledger l, under ▸ orderly.stacked l, under ▸ outside l, fun l' _ => outside l', ?_, ?_,
      fun _ => rfl⟩
    · rw [orderly.idle k h]
      rfl
    · rw [orderly.idle k h]
      exact fun _ _ => rfl

/-- A step for one search under one ledger. -/
theorem touch (orderly : Orderly s nest left) {inUse : Finset Nat}
    (elsewhere : ∀ l' ≠ l, some k ∉ nest.stack l')
    (stacked : Stacked (Function.update s.search k r) left' stack τ)
    (names : ∀ j ≠ k, some j ∈ stack → some j ∈ nest.stack l)
    (lefts : ∀ j ≠ k, left' j = left j)
    (others : ∀ j ≠ k, (j ∈ inUse ↔ j ∈ nest.inUse))
    (active : k ∈ inUse → r.isOpen = true) (idle : k ∉ inUse → r = .idle)
    (count : ix.openRetrievals = inUse.card) :
    Orderly ⟨ix, Function.update s.search k r, Function.update s.ledger l τ⟩
      ⟨inUse, Function.update nest.stack l stack⟩ left' := by
  -- The touched search can only be on the touched stack, and others stay where they were.
  have home {l' : Nat} (h : some k ∈ Function.update nest.stack l stack l') : l' = l := by
    by_contra ne
    rw [Function.update_of_ne ne] at h
    exact elsewhere l' ne h
  have old {j l' : Nat} (ne : j ≠ k) (h : some j ∈ Function.update nest.stack l stack l') :
      some j ∈ nest.stack l' := by
    by_cases here : l' = l
    · subst here
      rw [Function.update_self] at h
      exact names j ne h
    · rwa [Function.update_of_ne here] at h
  refine ⟨fun l' => ?_, fun j l₁ l₂ h₁ h₂ => ?_, fun j h => ?_, fun j h => ?_, count⟩
  · by_cases here : l' = l
    · subst here
      simpa only [Function.update_self] using stacked
    · simp only [Function.update_of_ne here]
      refine (orderly.stacked l').congr fun j h => ?_
      have ne : j ≠ k := fun same => elsewhere l' here (by rwa [← same])
      exact ⟨Function.update_of_ne ne _ _, lefts j ne⟩
  · by_cases same : j = k
    · subst same
      rw [home h₁, home h₂]
    · exact orderly.apart j l₁ l₂ (old same h₁) (old same h₂)
  · by_cases same : j = k
    · subst same
      simpa only [Function.update_self] using active h
    · simpa only [Function.update_of_ne same] using orderly.active j ((others j same).1 h)
  · by_cases same : j = k
    · subst same
      simpa only [Function.update_self] using idle h
    · simpa only [Function.update_of_ne same] using orderly.idle j (mt (others j same).2 h)

theorem reset (orderly : Orderly s nest left)
    (allowed : nest.Allows (.reset k l query c : SessionStep α))
    (accepted : (s.step (.reset k l query c)).1 = .done) :
    Orderly (s.step (.reset k l query c)).2
      (nest.after (.reset k l query c : SessionStep α))
      ((SessionStep.reset k l query c).leaves left (s.step (.reset k l query c)).2) := by
  obtain ⟨σ, beneath⟩ := orderly.beneath allowed
  obtain ⟨asked, held, -, opened, since, put⟩ := beneath.put accepted
  simp only [put, SessionStep.leaves, Function.update_self]
  refine orderly.touch beneath.elsewhere (beneath.stacked.push beneath.once since)
    (fun j ne h => ?_) (fun j ne => Function.update_of_ne ne _ _) (fun j ne => ?_)
    (fun _ => since.isOpen) (fun outside => absurd (Finset.mem_insert_self k _) outside) ?_
  · refine nest.under_subset k l ((List.mem_cons.1 h).resolve_left fun same => ?_)
    exact ne (Option.some.inj same)
  · rw [Finset.mem_insert, or_iff_right ne]
  · rw [opened, orderly.count_release, ← Finset.erase_insert_eq_erase,
      Finset.card_erase_add_one (Finset.mem_insert_self k _)]

theorem next (orderly : Orderly s nest left)
    (allowed : nest.Allows (.next k l : SessionStep α)) :
    Orderly (s.step (.next k l)).2 nest
      ((SessionStep.next k l).leaves left (s.step (.next k l)).2) := by
  have called : (s.step (.next k l)).2 = ⟨s.index,
      Function.update s.search k ((s.search k).call (s.ledger l)).2.1,
      Function.update s.ledger l ((s.search k).call (s.ledger l)).2.2⟩ := rfl
  simp only [called, SessionStep.leaves, Function.update_self]
  have same : nest = ⟨nest.inUse, Function.update nest.stack l (nest.stack l)⟩ := by
    rw [Function.update_eq_self]
  rw [same]
  by_cases h : k ∈ nest.inUse
  · obtain ⟨-, rest, σ, stack, since, once, below⟩ := (orderly.stacked l).newest (allowed h)
    have here : some k ∈ nest.stack l := stack ▸ List.mem_cons_self
    refine orderly.touch (fun l' ne there => ne (orderly.apart k l' l there here)) ?_
      (fun _ _ => id) (fun j ne => Function.update_of_ne ne _ _) (fun _ _ => Iff.rfl)
      (fun _ => since.call.isOpen) (absurd h) orderly.count
    rw [stack]
    exact below.push once since.call
  · have outside (l : Nat) : some k ∉ nest.stack l := fun here => h (orderly.mem_inUse here)
    rw [orderly.idle k h]
    exact orderly.touch (fun l' _ => outside l')
      (((orderly.stacked l).update_search (outside l) _).update_left (outside l) _)
      (fun _ _ => id) (fun j ne => Function.update_of_ne ne _ _) (fun _ _ => Iff.rfl)
      (fun h' => absurd h' h) (fun _ => rfl) orderly.count

theorem finish (orderly : Orderly s nest left)
    (allowed : nest.Allows (.finish k l : SessionStep α)) :
    Orderly (s.step (.finish k l)).2 (nest.after (.finish k l : SessionStep α)) left := by
  obtain ⟨σ, beneath⟩ := orderly.beneath allowed
  rw [Session.step, beneath.finish_eq]
  refine orderly.touch beneath.elsewhere (beneath.stacked.update_search beneath.once _)
    (fun j _ h => nest.under_subset k l h) (fun _ _ => rfl) (fun j ne => ?_)
    (fun h => absurd h (Finset.notMem_erase k _)) (fun _ => rfl) (orderly.count_release k)
  rw [Finset.mem_erase, and_iff_right ne]

theorem drop (orderly : Orderly s nest left) (k : Nat) :
    Orderly (s.step (.drop k)).2 (nest.after (.drop k : SessionStep α)) left := by
  refine ⟨fun l => (orderly.stacked l).drop _, fun j l l' h h' => ?_, fun j h => ?_, fun j h => ?_,
    orderly.count_release k⟩
  · exact orderly.apart j l l' (Nesting.mem_map_gap.1 h).1 (Nesting.mem_map_gap.1 h').1
  · obtain ⟨ne, h⟩ := Finset.mem_erase.1 h
    exact (congrArg Retrieval.isOpen (Function.update_of_ne ne _ _)).trans (orderly.active j h)
  · by_cases same : j = k
    · subst same
      exact Function.update_self _ _ _
    · exact (Function.update_of_ne same _ _).trans
        (orderly.idle j fun h' => h (Finset.mem_erase.2 ⟨same, h'⟩))

theorem change (orderly : Orderly s nest left) (change : Change α) :
    Orderly (s.step (.change change)).2 nest left := by
  rw [Session.step]
  split
  · exact orderly
  · next performed =>
      exact ⟨orderly.stacked, orderly.apart, orderly.active, orderly.idle,
        (Index.SameFrame.perform performed).openRetrievals_eq.trans orderly.count⟩

/-- Every step that is allowed keeps a session orderly. -/
theorem step (orderly : Orderly s nest left) {st : SessionStep α} (allowed : nest.Allows st)
    (accepted : ∀ k l query c, st = .reset k l query c → (s.step st).1 = .done) :
    Orderly (s.step st).2 (nest.after st) (st.leaves left (s.step st).2) := by
  cases st with
  | reset k l query c => exact orderly.reset allowed (accepted k l query c rfl)
  | next k l => exact orderly.next allowed
  | finish k l => exact orderly.finish allowed
  | drop k => exact orderly.drop k
  | change change => exact orderly.change change

/-- A search answers as if it was alone, until it is put again, given up or dropped. -/
theorem answersTo_eq (orderly : Orderly s nest left) (h : k ∈ nest.inUse)
    {between later : List (SessionStep α)} (inOrder : nest.InOrder (between ++ later))
    (accepted : s.Accepts (between ++ later)) (unsettled : ∀ st ∈ between, ¬ st.Settles k) :
    s.answersTo k between = (s.search k).alone (left k) (between.countP (·.calls k)) := by
  -- A step for another search changes neither this one nor what it left. When it is called itself
  -- it is the newest, so that the ledger is just what it left.
  induction between generalizing s nest left with
  | nil => rfl
  | cons st between ih =>
      obtain ⟨allowed, inOrder⟩ := inOrder
      obtain ⟨acceptedNow, accepted⟩ := accepted
      obtain ⟨unsettledNow, unsettled⟩ := List.forall_mem_cons.1 unsettled
      have later := ih (orderly.step allowed acceptedNow) (Nesting.mem_inUse_after h unsettledNow)
        inOrder accepted unsettled
      by_cases calls : st.calls k
      · obtain ⟨l, rfl⟩ := SessionStep.exists_of_calls calls
        obtain ⟨here, -⟩ := (orderly.stacked l).newest (allowed h)
        rw [Session.answersTo, if_pos calls, List.countP_cons_of_pos calls, Retrieval.alone, later,
          ← here]
        simp only [Session.step, SessionStep.leaves, Function.update_self]
      · rw [Session.answersTo, if_neg calls, List.countP_cons_of_neg calls, later,
          Session.search_step unsettledNow calls, SessionStep.leaves_eq unsettledNow calls]

/-- Several steps keep a session orderly. -/
theorem run (orderly : Orderly s nest left) {before later : List (SessionStep α)}
    (inOrder : nest.InOrder (before ++ later)) (accepted : s.Accepts (before ++ later)) :
    (∃ left', Orderly (s.run before) (nest.afterAll before) left') ∧
      (nest.afterAll before).InOrder later ∧ (s.run before).Accepts later := by
  induction before generalizing s nest left with
  | nil => exact ⟨⟨left, orderly⟩, inOrder, accepted⟩
  | cons st before ih => exact ih (orderly.step inOrder.1 accepted.1) inOrder.2 accepted.2

/-- Queries that are headed by symbols are not refused. -/
theorem accepts (orderly : Orderly s nest left) {steps : List (SessionStep α)}
    (inOrder : nest.InOrder steps)
    (compound : ∀ k l query c, .reset k l query c ∈ steps →
      query.isQuantifierFree = true ∧ ∃ f, query.head = .symbol f) : s.Accepts steps := by
  induction steps generalizing s nest left with
  | nil => trivial
  | cons st steps ih =>
      have accepted : ∀ k l query c, st = .reset k l query c → (s.step st).1 = .done := by
        rintro k l query c rfl
        obtain ⟨plain, f, head⟩ := compound k l query c List.mem_cons_self
        obtain ⟨σ, beneath⟩ := orderly.beneath inOrder.1
        have free : σ.deref query = query := Unifier.deref_of_free (by rw [head]; trivial)
        rw [Session.step, beneath.reset_eq, Retrieval.idle_reset, plain, free, head]
        rfl
      exact ⟨accepted, ih (orderly.step inOrder.1 accepted) inOrder.2
        fun k l query c h => compound k l query c (List.mem_cons_of_mem _ h)⟩

end Orderly

theorem Index.perform_of_open (held : 0 < ix.openRetrievals) (change : Change α) :
    change.perform ix = .error .changedDuringRetrieval := by
  have refused : ix.requireClosed = .error .changedDuringRetrieval := by
    rw [requireClosed, beq_eq_false_iff_ne.2 held.ne']
    rfl
  cases change with
  | insert t c object => rw [Change.perform, insert, refused]; rfl
  | erase t c condition => rw [Change.perform, erase, refused]; rfl
  | relocate t c target condition => rw [Change.perform, relocate, refused]; rfl

namespace Session

variable {s : Session α}

/-- In a session in which searches under one ledger are used like brackets, every search that is
put to the index answers as if it was run alone, under the ledger without its bindings of before.
At every moment the index is held open by as many searches as are in use, and it refuses to
change as long as there are any. -/
theorem run_undisturbed {steps : List (SessionStep α)}
    (fresh : ∀ k, s.search k = .idle) (closed : s.index.openRetrievals = 0)
    (inOrder : Nesting.empty.InOrder steps) (accepted : s.Accepts steps) :
    (∀ before between later k l query c,
      steps = before ++ .reset k l query c :: (between ++ later) →
      (∀ st ∈ between, ¬ st.Settles k) →
        ∃ asked held σ,
          Retrieval.idle.reset (s.run before).index query c σ = .ok (asked, held, σ) ∧
          ((s.run before).step (.reset k l query c)).2.ledger l = σ ∧
          (k ∉ (Nesting.empty.afterAll before).inUse → σ = (s.run before).ledger l) ∧
          ((s.run before).step (.reset k l query c)).2.answersTo k between =
            asked.alone σ (between.countP (·.calls k))) ∧
    ∀ before later, steps = before ++ later →
      (s.run before).index.openRetrievals = (Nesting.empty.afterAll before).inUse.card ∧
      ∀ change : Change α, change.term.isQuantifierFree = true →
        ((Nesting.empty.afterAll before).inUse.card = 0 → ∃ answer ix,
          (s.run before).step (.change change) =
            (.changed answer, { s.run before with index := ix })) ∧
        (0 < (Nesting.empty.afterAll before).inUse.card →
          (s.run before).step (.change change) =
            (.refused .changedDuringRetrieval, s.run before)) := by
  have orderly := Orderly.start fresh closed
  constructor
  · rintro before between later k l query c rfl unsettled
    obtain ⟨⟨left, now⟩, ⟨allowed, inOrder⟩, acceptedNow, accepted⟩ := orderly.run inOrder accepted
    have done := acceptedNow k l query c rfl
    obtain ⟨σ, beneath⟩ := now.beneath allowed
    obtain ⟨asked, held, reset, -, -, put⟩ := beneath.put done
    have answers := (now.reset allowed done).answersTo_eq (Finset.mem_insert_self k _) inOrder
      accepted unsettled
    rw [put] at answers ⊢
    refine ⟨asked, _, σ, Retrieval.idle_reset_of_release reset, ?_, beneath.eq_of_notMem, ?_⟩
    · exact Function.update_self _ _ _
    · rw [answers]
      simp only [SessionStep.leaves, Function.update_self]
  · rintro before later rfl
    obtain ⟨⟨left, now⟩, -⟩ := orderly.run inOrder accepted
    refine ⟨now.count, fun change plain => ⟨fun none => ?_, fun some => ?_⟩⟩
    · obtain ⟨answer, ix, performed⟩ := Index.exists_perform (now.count.trans none) plain
      exact ⟨answer, ix, by rw [step, performed]⟩
    · rw [step, Index.perform_of_open (now.count ▸ some)]

/-- A search is called twice. In between, another one is put under its ledger, called and given
up, and a third one is put under another ledger, called and dropped. -/
def nested (query : Subterm) : List (SessionStep Nat) :=
  [.next 0 0, .reset 1 0 query .empty, .reset 2 1 query .empty, .next 2 1, .next 1 0, .finish 1 0,
    .drop 2, .next 0 0]

theorem run_undisturbed_nested :
    ∃ (ga gx query : Subterm) (start ix : Index Nat) (answers : List (Option Nat))
      (asked : Retrieval Nat) (held : Index Nat),
      Subterm.ofSpelling [.symbol ⟨20, .function, 1⟩, .symbol ⟨21, .constant, 0⟩] = .ok ga ∧
      Subterm.ofSpelling [.symbol ⟨20, .function, 1⟩, .var ⟨0, 0⟩] = .ok gx ∧
      Subterm.ofSpelling [.symbol ⟨20, .function, 1⟩, .var ⟨1, 0⟩] = .ok query ∧
      Index.create 2 = .ok start ∧
      Index.changeAll [.insert ga .empty 7, .insert gx .empty 8] start = .ok (answers, ix) ∧
      Nesting.empty.InOrder (.reset 0 0 query .empty :: (nested query ++
        [.reset 0 0 query .empty])) ∧
      (new ix).Accepts (.reset 0 0 query .empty :: (nested query ++ [.reset 0 0 query .empty])) ∧
      Retrieval.idle.reset ix query .empty .empty = .ok (asked, held, .empty) ∧
      ((new ix).step (.reset 0 0 query .empty)).2.answersTo 0 (nested query) =
        asked.alone .empty 2 ∧
      ((new ix).run (.reset 0 0 query .empty :: (nested query ++
        [.reset 0 0 query .empty]))).index.openRetrievals = 1 := by
  obtain ⟨ga, madeGa⟩ : ∃ t, Subterm.ofSpelling
      [.symbol ⟨20, .function, 1⟩, .symbol ⟨21, .constant, 0⟩] = .ok t := ⟨_, rfl⟩
  obtain ⟨gx, madeGx⟩ : ∃ t, Subterm.ofSpelling
      [.symbol ⟨20, .function, 1⟩, .var ⟨0, 0⟩] = .ok t := ⟨_, rfl⟩
  obtain ⟨query, asks⟩ : ∃ t, Subterm.ofSpelling
      [.symbol ⟨20, .function, 1⟩, .var ⟨1, 0⟩] = .ok t := ⟨_, rfl⟩
  have plain : ∀ change ∈ [Change.insert ga .empty 7, .insert gx .empty 8],
      change.term.isQuantifierFree = true := by
    simp only [List.forall_mem_cons]
    exact ⟨by cases madeGa; rfl, by cases madeGx; rfl, by simp⟩
  have compound : query.isQuantifierFree = true ∧ ∃ f, query.head = .symbol f := by
    cases asks
    exact ⟨rfl, _, rfl⟩
  obtain ⟨start, created, holds, closed⟩ := Index.create_holds (α := Nat) (n := 2) (by decide)
  obtain ⟨answers, ix, reached⟩ := Index.exists_changeAll holds closed plain
  have fresh (k : Nat) : (new ix).search k = .idle := rfl
  have closed : (new ix).index.openRetrievals = 0 := (holds.changeAll closed reached).2.2
  have inOrder : Nesting.empty.InOrder
      (.reset 0 0 query .empty :: (nested query ++ [.reset 0 0 query .empty])) :=
    of_decide_eq_true rfl
  have accepted := (Orderly.start fresh closed).accepts inOrder fun k l query' c put => by
    obtain rfl : query' = query := by grind [nested]
    exact compound
  obtain ⟨alone, counts⟩ := run_undisturbed fresh closed inOrder accepted
  obtain ⟨asked, held, σ, put, -, same, answered⟩ :=
    alone [] (nested query) [.reset 0 0 query .empty] 0 0 query .empty rfl
      (by simp [nested, SessionStep.Settles])
  obtain rfl : σ = .empty := same (Finset.notMem_empty 0)
  exact ⟨ga, gx, query, start, ix, answers, asked, held, madeGa, madeGx, asks, created, reached,
    inOrder, accepted, put, answered, (counts _ [] (List.append_nil _).symm).1⟩

end Session

end SaturationCore
