/-
# Searches of like trees go in step

What a search does in a tree depends on heads, tests and what a leaf has for one cluster, not
on the order of clusters at a leaf. Put to indexes with like trees, a query is therefore
searched for in step: every call refuses with the same fault, or gives out the same object
under the same ledger, or both searches have come to the end of the trees. From then on each
of them tries the bare variables of its own index, which never fails.

What is given out before is stored under terms that are no variables, and what is given out
afterwards under variables. So the objects under terms that are no variables are listed first,
and in the same order, in every index with the same objects under the same such keys.
-/
import SaturationCore.Proofs.DiscriminationTree.Canonical
import SaturationCore.Proofs.Retrieval.Exactness
import SaturationCore.Proofs.Retrieval.Extension

namespace SaturationCore

/-- Both computations refuse with the same fault, or give related results. -/
inductive Checked.Both {β γ : Type} (p : β → γ → Prop) : Checked β → Checked γ → Prop where
  | refused (fault : Fault) : Both p (.error fault) (.error fault)
  | answered {b : β} {c : γ} : p b c → Both p (.ok b) (.ok c)

namespace Checked.Both

variable {β γ β' γ' : Type} {p : β → γ → Prop} {q : β' → γ' → Prop}

theorem same (x : Checked β) : Both (· = ·) x x := by
  cases x with
  | error fault => exact .refused fault
  | ok b => exact .answered rfl

theorem cases {x : Checked β} {y : Checked γ} (both : Both p x y) :
    (∃ fault, x = .error fault ∧ y = .error fault) ∨
      ∃ b c, x = .ok b ∧ y = .ok c ∧ p b c := by
  cases both with
  | refused fault => exact .inl ⟨fault, rfl, rfl⟩
  | answered related => exact .inr ⟨_, _, rfl, rfl, related⟩

theorem imp {p' : β → γ → Prop} {x : Checked β} {y : Checked γ} (both : Both p x y)
    (each : ∀ b c, p b c → p' b c) : Both p' x y := by
  cases both with
  | refused fault => exact .refused fault
  | answered related => exact .answered (each _ _ related)

theorem bind {x : Checked β} {y : Checked γ} {f : β → Checked β'} {g : γ → Checked γ'}
    (both : Both p x y) (each : ∀ b c, p b c → Both q (f b) (g c)) :
    Both q (x >>= f) (y >>= g) := by
  cases both with
  | refused fault => exact .refused fault
  | answered related => exact each _ _ related

end Checked.Both

variable {α : Type} {c : Cluster} {σ τ τ' υ : Unifier} {query : Subterm}

/-! ## Where objects are stored -/

theorem Listing.mem_under {l : Listing α} {hs : List Head} {object : α} :
    object ∈ under hs l ↔ (hs, object) ∈ l := by
  rw [under, List.mem_map]
  constructor
  · rintro ⟨e, he, rfl⟩
    obtain ⟨he, here⟩ := List.mem_filter.1 he
    rwa [← of_decide_eq_true here]
  · exact fun h => ⟨_, List.mem_filter.2 ⟨h, decide_eq_true rfl⟩, rfl⟩

namespace Node

variable {h : Head} {summary : Summary} {test : ClusterTest} {leaves : List (Cluster × List α)}
  {children later : List (Node α)}

/-- What is held below the children of a node is held below its siblings, behind its head. -/
theorem mem_heldAll_of_children (more : children ≠ []) {e : List Head × α}
    (he : e ∈ heldAll c children) :
    (h :: e.1, e.2) ∈ heldAll c (.mk h summary test leaves children :: later) := by
  refine List.mem_append_left _ ?_
  rw [held_inner _ _ _ _ more]
  exact List.mem_map.2 ⟨e, he, rfl⟩

theorem mem_heldAll_of_leaf {object : α} (stored : object ∈ (leaves.lookup c).getD []) :
    ([h], object) ∈ heldAll c (.mk h summary test leaves [] :: later) := by
  refine List.mem_append_left _ ?_
  rw [held_leaf]
  exact List.mem_map_of_mem stored

end Node

namespace Index

variable {ix ix' : Index α} {object : α}

/-- The object is stored under a term that is no variable. -/
def StoresCompound (ix : Index α) (c : Cluster) (object : α) : Prop :=
  ∃ hs, (∀ v, hs ≠ [.var v]) ∧ object ∈ ix.contents ⟨hs, c⟩

/-- The object is stored under a variable. -/
def StoresBare (ix : Index α) (c : Cluster) (object : α) : Prop :=
  ∃ v, object ∈ ix.contents ⟨[.var v], c⟩

/-- The bare variables of a cluster, each with its objects. -/
def bareEntries (ix : Index α) (c : Cluster) : List (Variable × List α) :=
  (ix.bareVariables.lookup c).getD []

theorem Shaped.storesCompound (shaped : ix.Shaped) {place : Nat} {e : List Head × α}
    (he : e ∈ Node.heldAll c (ix.bucket place).roots) : ix.StoresCompound c e.2 := by
  obtain ⟨s, rest, spelled, rfl⟩ := shaped.spelling_of_mem_heldAll he
  refine ⟨.symbol s :: rest, nofun, ?_⟩
  have listed := (shaped.bucket (s.id % ix.buckets.size)).forest.under_heldAll (c := c) e.1
  rw [spelled] at listed
  show e.2 ∈ ((Node.leavesAt (.symbol s :: rest) _).lookup c).getD []
  rw [← listed, ← spelled]
  exact Listing.mem_under.2 he

theorem Shaped.storesBare (shaped : ix.Shaped) {v : Variable} {objects : List α}
    (entry : (v, objects) ∈ ix.bareEntries c) (h : object ∈ objects) : ix.StoresBare c object := by
  refine ⟨v, ?_⟩
  have found := (Association.lookup_eq_some_iff (shaped.distinct_bare c)).2 entry
  show object ∈ (((ix.bareVariables.lookup c).getD []).lookup v).getD []
  rwa [found]

/-- Both lists begin with the same objects under the same ledgers, which are stored under terms
that are no variables. Any others are stored under variables. -/
def ListsAlike (ix ix' : Index α) (c : Cluster) (found found' : List (α × Unifier)) : Prop :=
  ∃ listed swept swept', found = listed ++ swept ∧ found' = listed ++ swept' ∧
    (∀ f ∈ listed, ix.StoresCompound c f.1 ∧ ix'.StoresCompound c f.1) ∧
    (∀ f ∈ swept, ix.StoresBare c f.1) ∧ ∀ f ∈ swept', ix'.StoresBare c f.1

end Index

/-- All that may still be given out in a phase is stored where the phase looks for it. -/
def Phase.Within (ix : Index α) (c : Cluster) : Phase α → Prop
  | .idle | .done => True
  | .tree stack pending =>
    (∀ cp ∈ stack, ∀ e ∈ Node.heldAll c cp.siblings, ix.StoresCompound c e.2) ∧
      ∀ object ∈ pending, ix.StoresCompound c object
  | .sweeping rest pending =>
    rest <:+ ix.bareEntries c ∧ ∀ object ∈ pending, ix.StoresBare c object

/-- Whether trees are searched. -/
def Phase.InTrees : Phase α → Prop
  | .tree .. => True
  | _ => False

/-- The levels are at the same place in trees that are alike. -/
inductive ChoicePoint.Alike : ChoicePoint α → ChoicePoint α → Prop where
  | mk {siblings siblings' : List (Node α)} {frames : List Frame} {savepoint : Savepoint}
      {descent : Descent} :
      List.Forall₂ Node.Alike siblings siblings' →
      Alike ⟨siblings, frames, savepoint, descent⟩ ⟨siblings', frames, savepoint, descent⟩

namespace Retrieval

variable {ix ix' : Index α} {r r' : Retrieval α} {stack stack' : List (ChoicePoint α)}
  {objects : List α} {answer : Option α}

/-! ## One search -/

theorem Advances.within (advances : Advances c stack τ objects stack' τ')
    (within : ∀ cp ∈ stack, ∀ e ∈ Node.heldAll c cp.siblings, ix.StoresCompound c e.2) :
    (∀ cp ∈ stack', ∀ e ∈ Node.heldAll c cp.siblings, ix.StoresCompound c e.2) ∧
      ∀ object ∈ objects, ix.StoresCompound c object := by
  induction advances with
  | done => exact ⟨within, List.forall_mem_nil _⟩
  | empty _ ih => exact ih (List.forall_mem_cons.1 within).2
  | leave _ _ ih => exact ih (List.forall_mem_cons.1 within).2
  | later _ _ _ ih =>
      obtain ⟨here, outer⟩ := List.forall_mem_cons.1 within
      exact ih (List.forall_mem_cons.2
        ⟨fun e he => here e (List.mem_append_right _ he), outer⟩)
  | enter _ _ more _ ih =>
      obtain ⟨here, outer⟩ := List.forall_mem_cons.1 within
      refine ih (List.forall_mem_cons.2 ⟨fun e he => ?_, List.forall_mem_cons.2
        ⟨fun e he => here e (List.mem_append_right _ he), outer⟩⟩)
      have held := here _ (Node.mem_heldAll_of_children more he)
      exact held
  | found =>
      obtain ⟨here, outer⟩ := List.forall_mem_cons.1 within
      refine ⟨List.forall_mem_cons.2 ⟨fun e he => here e (List.mem_append_right _ he), outer⟩,
        fun object stored => here _ (Node.mem_heldAll_of_leaf stored)⟩

/-- A search that was put to an index under a ledger, for objects of a cluster. -/
structure Searches (ix : Index α) (c : Cluster) (σ : Unifier) (r : Retrieval α) (τ : Unifier) :
    Prop where
  since : Since σ r τ
  cluster_eq : r.cluster = c
  bare_eq : r.bareVariables = ix.bareEntries c
  within : r.phase.Within ix c

namespace Searches

/-- What is given out before the end of the trees is stored under terms that are no variables,
and what is given out afterwards under variables. -/
def Origin (ix : Index α) (c : Cluster) (phase : Phase α) (object : α) : Prop :=
  (phase.InTrees → ix.StoresCompound c object) ∧ (¬ phase.InTrees → ix.StoresBare c object)

theorem origin_tree {stack : List (ChoicePoint α)} {pending : List α} {object : α}
    (stored : ix.StoresCompound c object) : Origin ix c (.tree stack pending) object :=
  ⟨fun _ => stored, fun left => absurd trivial left⟩

theorem origin_sweeping {rest : List (Variable × List α)} {pending : List α} {object : α}
    (stored : ix.StoresBare c object) : Origin ix c (.sweeping rest pending) object :=
  ⟨False.elim, fun _ => stored⟩

/-- Trying bare variables that are left never fails, and gives out what they have. -/
theorem sweep (searches : Searches ix c σ r τ) (shaped : ix.Shaped)
    {bare : List (Variable × List α)} (left : bare <:+ ix.bareEntries c) :
    ∃ answer r' τ', r.sweep bare τ = .ok (answer, r', τ') ∧ Searches ix c σ r' τ' ∧
      ¬ r'.phase.InTrees ∧ ∀ object ∈ answer, Origin ix c r'.phase object := by
  obtain ⟨since, cluster, bareEq, -⟩ := searches
  rcases sweep_sweeps since.start_eq bare since.extended with swept |
    ⟨v, object, pending, rest, υ, swept, -, later⟩
  · exact ⟨_, _, _, swept, ⟨since.sweep swept, cluster, bareEq, trivial⟩, id, nofun⟩
  · have entry : (v, object :: pending) ∈ ix.bareEntries c :=
      (later.trans left).subset List.mem_cons_self
    have behind : rest <:+ ix.bareEntries c :=
      ((List.suffix_cons _ _).trans later).trans left
    refine ⟨_, _, _, swept, ⟨since.sweep swept, cluster, bareEq, behind, fun object' h => ?_⟩, id,
      fun object' given => ?_⟩
    · exact shaped.storesBare entry (List.mem_cons_of_mem _ h)
    · cases given
      exact origin_sweeping (shaped.storesBare entry List.mem_cons_self)

theorem rewound (searches : Searches ix c σ r τ) : Searches ix c σ r σ :=
  ⟨searches.since.rewound, searches.cluster_eq, searches.bare_eq, searches.within⟩

theorem sweep_all (searches : Searches ix c σ r τ) (shaped : ix.Shaped) :
    ∃ answer r' τ', r.sweep r.bareVariables σ = .ok (answer, r', τ') ∧ ¬ r'.phase.InTrees := by
  have all : r.bareVariables <:+ ix.bareEntries c := by rw [searches.bare_eq]
  obtain ⟨answer, r', τ', swept, -, left, -⟩ := searches.rewound.sweep shaped all
  exact ⟨answer, r', τ', swept, left⟩

/-- Where what a call gives out is stored. -/
theorem next (searches : Searches ix c σ r τ) (shaped : ix.Shaped)
    (given : r.next τ = .ok (answer, r', τ')) :
    Searches ix c σ r' τ' ∧ ∀ object ∈ answer, Origin ix c r'.phase object := by
  have since' := searches.since.next given
  have swept {bare : List (Variable × List α)} {υ : Unifier} (now : Searches ix c σ r υ)
      (left : bare <:+ ix.bareEntries c) (given : r.sweep bare υ = .ok (answer, r', τ')) :
      Searches ix c σ r' τ' ∧ ∀ object ∈ answer, Origin ix c r'.phase object := by
    obtain ⟨_, _, _, given', searches', -, origin⟩ := now.sweep shaped left
    cases given.symm.trans given'
    exact ⟨searches', origin⟩
  obtain ⟨since, rfl, bareEq, within⟩ := searches
  cases gives_of_next given with
  | nothing => exact ⟨⟨since, rfl, bareEq, within⟩, nofun⟩
  | waiting phase =>
      rw [phase] at within
      obtain ⟨levels, objects⟩ := within
      obtain ⟨first, others⟩ := List.forall_mem_cons.1 objects
      refine ⟨⟨since', rfl, bareEq, levels, others⟩, fun object' same => ?_⟩
      cases same
      exact origin_tree first
  | reached phase advanced =>
      rw [phase] at within
      obtain ⟨levels, objects⟩ := (advances_of_advance advanced).within within.1
      obtain ⟨first, others⟩ := List.forall_mem_cons.1 objects
      refine ⟨⟨since', rfl, bareEq, levels, others⟩, fun object' same => ?_⟩
      cases same
      exact origin_tree first
  | behind phase advanced back given =>
      rw [since.back_eq phase advanced back] at given
      exact swept ⟨since.rewound, rfl, bareEq, within⟩ (bareEq ▸ List.suffix_refl _) given
  | bare phase =>
      rw [phase] at within
      obtain ⟨left, objects⟩ := within
      obtain ⟨first, others⟩ := List.forall_mem_cons.1 objects
      refine ⟨⟨since', rfl, bareEq, left, others⟩, fun object' same => ?_⟩
      cases same
      exact origin_sweeping first
  | swept phase given =>
      have left := within
      rw [phase] at left
      exact swept ⟨since, rfl, bareEq, within⟩ left.1 given

/-- Behind the end of the trees a call never fails. -/
theorem next_swept (searches : Searches ix c σ r τ) (shaped : ix.Shaped)
    (left : ¬ r.phase.InTrees) :
    ∃ answer r' τ', r.next τ = .ok (answer, r', τ') ∧ ¬ r'.phase.InTrees := by
  rw [Retrieval.next]
  cases phase : r.phase with
  | idle => exact ⟨none, r, τ, rfl, left⟩
  | done => exact ⟨none, r, τ, rfl, left⟩
  | tree => exact absurd (by rw [phase]; trivial) left
  | sweeping rest pending =>
      cases pending with
      | cons object pending => exact ⟨_, _, _, rfl, id⟩
      | nil =>
          have within := searches.within
          rw [phase] at within
          obtain ⟨answer, r', τ', swept, -, left', -⟩ := searches.sweep shaped within.1
          exact ⟨answer, r', τ', swept, left'⟩

theorem drain_succ {limit : Nat} (given : r.next τ = .ok (answer, r', τ'))
    (origin : ∀ object ∈ answer, Origin ix c r'.phase object) (left : ¬ r'.phase.InTrees)
    (rest : ∃ found last υ, r'.drain τ' limit = .ok (found, last, υ) ∧
      ∀ f ∈ found, ix.StoresBare c f.1) :
    ∃ found last υ, r.drain τ (limit + 1) = .ok (found, last, υ) ∧
      ∀ f ∈ found, ix.StoresBare c f.1 := by
  rw [drain, given]
  cases answer with
  | none => exact ⟨[], r', τ', rfl, List.forall_mem_nil _⟩
  | some object =>
      obtain ⟨found, last, υ, drained, stored⟩ := rest
      refine ⟨(object, τ') :: found, last, υ, ?_,
        List.forall_mem_cons.2 ⟨(origin object rfl).2 left, stored⟩⟩
      exact bind_eq_ok_iff.2 ⟨_, rfl, bind_eq_ok_iff.2 ⟨_, drained, rfl⟩⟩

/-- Behind the end of the trees, objects stored under variables are listed. -/
theorem drain_swept (searches : Searches ix c σ r τ) (shaped : ix.Shaped)
    (left : ¬ r.phase.InTrees) (limit : Nat) :
    ∃ found last υ, r.drain τ limit = .ok (found, last, υ) ∧
      ∀ f ∈ found, ix.StoresBare c f.1 := by
  induction limit generalizing r τ with
  | zero => exact ⟨[], r, τ, rfl, nofun⟩
  | succ limit ih =>
      obtain ⟨answer, r', τ', given, left'⟩ := searches.next_swept shaped left
      obtain ⟨searches', origin⟩ := searches.next shaped given
      exact drain_succ given origin left' (ih searches' left')

end Searches

/-! ## Two searches -/

open Checked (Both)

/-- Two searches of trees come to the same objects under the same ledger, on like levels. -/
theorem advance_both (alike : List.Forall₂ ChoicePoint.Alike stack stack') (τ : Unifier) :
    Both (fun a a' => a.1 = a'.1 ∧ List.Forall₂ ChoicePoint.Alike a.2.1 a'.2.1 ∧ a.2.2 = a'.2.2)
      (advance c stack τ) (advance c stack' τ) := by
  induction stack, τ using advance.induct generalizing stack' with
  | case1 τ =>
      cases alike
      rw [advance]
      exact .answered ⟨rfl, .nil, rfl⟩
  | case2 τ frames savepoint descent outer ih =>
      obtain ⟨_, outer', ⟨⟨⟩⟩, below, rfl⟩ := List.forall₂_cons_left_iff.1 alike
      rw [advance, advance]
      exact ih below
  | case3 τ h summary test leaves children later frames savepoint descent outer ihUntested ihOuter
      ihLater ihChildren =>
      obtain ⟨_, outer', ⟨level⟩, below, rfl⟩ := List.forall₂_cons_left_iff.1 alike
      obtain ⟨_, later', ⟨rearranged, inner⟩, behind, rfl⟩ := List.forall₂_cons_left_iff.1 level
      have others : List.Forall₂ ChoicePoint.Alike (⟨later, frames, savepoint, descent⟩ :: outer)
          (⟨later', frames, savepoint, descent⟩ :: outer') := .cons (.mk behind) below
      rw [advance, advance]
      refine (Both.same _).bind ?_
      rintro υ _ rfl
      split
      · exact ihUntested υ others
      · refine (Both.same _).bind ?_
        rintro passage _ rfl
        cases passage with
        | skip => exact ihLater υ others
        | exhausted => exact ihOuter υ below
        | descend reached innerDescent υ' =>
            cases inner with
            | cons first rest =>
                exact ihChildren reached innerDescent υ'
                  (.cons (.mk (.cons first rest)) others)
            | nil =>
                dsimp only [List.isEmpty_nil]
                rw [if_pos rfl, if_pos rfl, ← rearranged.lookup_eq]
                refine (Both.same _).bind ?_
                rintro _ _ rfl
                cases (leaves.lookup c).getD [] with
                | nil => exact ihLater υ' others
                | cons object pending => exact .answered ⟨rfl, others, rfl⟩

/-- The searches are at the same place in like trees. -/
structure Abreast (r r' : Retrieval α) : Prop where
  cluster_eq : r.cluster = r'.cluster
  start_eq : r.start = r'.start
  levels : ∃ stack stack' pending, r.phase = .tree stack pending ∧ r'.phase = .tree stack' pending ∧
    List.Forall₂ ChoicePoint.Alike stack stack'

/-- What a call comes to in both searches: the same object under the same ledger with the trees
still to be searched, or the end of the trees. -/
def InStep (a a' : Option α × Retrieval α × Unifier) : Prop :=
  (∃ object r r' τ, a = (some object, r, τ) ∧ a' = (some object, r', τ) ∧ Abreast r r') ∨
    ¬ a.2.1.phase.InTrees ∧ ¬ a'.2.1.phase.InTrees

theorem Abreast.next (abreast : Abreast r r') (shaped : ix.Shaped) (shaped' : ix'.Shaped)
    (searches : Searches ix c σ r τ) (searches' : Searches ix' c σ r' τ) :
    Both InStep (r.next τ) (r'.next τ) := by
  obtain ⟨cluster, start, stack, stack', pending, phase, phase', alike⟩ := abreast
  rw [Retrieval.next, Retrieval.next, phase, phase']
  cases pending with
  | cons object pending =>
      exact .answered (.inl ⟨object, _, _, τ, rfl, rfl, cluster, start, stack, stack', pending, rfl,
        rfl, alike⟩)
  | nil =>
      have grew {objects : List α} {left : List (ChoicePoint α)} {υ : Unifier}
          (advanced : advance r.cluster stack τ = .ok (objects, left, υ)) : υ.Extends σ :=
        (advance_extends (searches.since.above _ _ phase) searches.since.extended advanced).2
      have both := advance_both (c := r.cluster) alike τ
      dsimp only
      rw [← cluster, ← start, searches.since.start_eq]
      generalize advance r.cluster stack τ = result at both grew
      generalize advance r.cluster stack' τ = result' at both
      cases both with
      | refused fault => exact .refused fault
      | @answered a a' same =>
          obtain ⟨objects, left, υ⟩ := a
          obtain ⟨_, left', _⟩ := a'
          obtain ⟨rfl, alike', rfl⟩ := same
          cases objects with
          | cons object pending =>
              exact .answered (.inl ⟨object, _, _, υ, rfl, rfl, rfl, rfl, left, left', pending, rfl,
                rfl, alike'⟩)
          | nil =>
              obtain ⟨answer, last, υ', swept, left⟩ := searches.sweep_all shaped
              obtain ⟨answer', last', υ'', swept', left'⟩ := searches'.sweep_all shaped'
              dsimp only [bind, Except.bind]
              rw [(grew rfl).backtrackTo_eq]
              dsimp only
              rw [swept, swept']
              exact .answered (.inr ⟨left, left'⟩)

/-- Several calls list the same objects as long as there are any in the trees. -/
theorem Abreast.drain (abreast : Abreast r r') (shaped : ix.Shaped) (shaped' : ix'.Shaped)
    (searches : Searches ix c σ r τ) (searches' : Searches ix' c σ r' τ) (limit : Nat) :
    Both (fun a a' => ix.ListsAlike ix' c a.1 a'.1) (r.drain τ limit) (r'.drain τ limit) := by
  induction limit generalizing r r' τ with
  | zero => exact .answered ⟨[], [], [], rfl, rfl, nofun, nofun, nofun⟩
  | succ limit ih =>
      rcases (abreast.next shaped shaped' searches searches').cases with
        ⟨fault, refused, refused'⟩ | ⟨a, a', given, given', step⟩
      · rw [Retrieval.drain, Retrieval.drain, refused, refused']
        exact .refused fault
      · obtain ⟨later, origin⟩ := searches.next shaped given
        obtain ⟨later', origin'⟩ := searches'.next shaped' given'
        rcases step with ⟨object, s, s', υ, rfl, rfl, abreast'⟩ | ⟨left, left'⟩
        · obtain ⟨stack, stack', pending, phase, phase', -⟩ := abreast'.levels
          have stored : ix.StoresCompound c object :=
            (origin object rfl).1 (by rw [phase]; trivial)
          have stored' : ix'.StoresCompound c object :=
            (origin' object rfl).1 (by rw [phase']; trivial)
          rw [Retrieval.drain, Retrieval.drain, given, given']
          refine (ih abreast' later later').bind ?_
          rintro ⟨_, last, _⟩ ⟨_, last', _⟩ ⟨listed, swept, swept', rfl, rfl, compound, bare⟩
          exact .answered ⟨(object, υ) :: listed, swept, swept', rfl, rfl,
            List.forall_mem_cons.2 ⟨⟨stored, stored'⟩, compound⟩, bare⟩
        · obtain ⟨found, last, _, drained, bare⟩ :=
            Searches.drain_succ given origin left (later.drain_swept shaped left limit)
          obtain ⟨found', last', _, drained', bare'⟩ :=
            Searches.drain_succ given' origin' left' (later'.drain_swept shaped' left' limit)
          rw [drained, drained']
          exact .answered ⟨[], found, found', rfl, rfl, nofun, bare, bare'⟩

end Retrieval

/-! ## Putting a query -/

theorem Bucket.Alike.rootsFor {b b' : Bucket α} (alike : b.Alike b') :
    List.Forall₂ Node.Alike (b.rootsFor c) (b'.rootsFor c) := by
  rw [Bucket.rootsFor, Bucket.rootsFor, ← alike.summary_eq]
  split
  · exact alike.roots
  · exact .nil

namespace Retrieval

open Checked (Both)

variable {ix ix' : Index α} {roots : List (Node α)} {h : Head}

theorem rootsBelow_both (alike : ix.Alike ix') (c : Cluster) (h : Head) :
    Both (List.Forall₂ Node.Alike) (rootsBelow ix c h) (rootsBelow ix' c h) := by
  cases h with
  | binder v => exact .refused .unbucketed
  | symbol s =>
      refine .answered ?_
      rw [← alike.size_eq]
      exact (alike.bucket _).rootsFor
  | var v =>
      refine .answered ?_
      rw [Index.toList_buckets, Index.toList_buckets, ← alike.size_eq, List.flatMap_map,
        List.flatMap_map]
      refine List.rel_flatMap (List.forall₂_same.2 fun place _ => rfl) ?_
      rintro place _ rfl
      exact (alike.bucket place).rootsFor

theorem exists_bucket_of_rootsBelow (below : rootsBelow ix c h = .ok roots) {n : Node α}
    (hn : n ∈ roots) : ∃ place, n ∈ (ix.bucket place).roots := by
  cases h with
  | binder v => cases below
  | symbol s =>
      cases below
      exact ⟨_, Bucket.mem_roots_of_mem_rootsFor hn⟩
  | var v =>
      cases below
      obtain ⟨b, hb, hn⟩ := List.mem_flatMap.1 hn
      rw [Index.toList_buckets] at hb
      obtain ⟨place, -, rfl⟩ := List.mem_map.1 hb
      exact ⟨place, Bucket.mem_roots_of_mem_rootsFor hn⟩

theorem asking_searches (shaped : ix.Shaped) (below : rootsBelow ix c h = .ok roots)
    (query : Subterm) (σ : Unifier) : Searches ix c σ (asking ix query c σ roots) σ := by
  refine ⟨.asking ix query c σ roots, rfl, rfl, ?_, nofun⟩
  intro cp level e he
  cases List.mem_singleton.1 level
  obtain ⟨n, hn, he⟩ := Node.mem_heldAll_iff.1 he
  obtain ⟨place, hn⟩ := exists_bucket_of_rootsBelow below hn
  exact shaped.storesCompound (Node.mem_heldAll_iff.2 ⟨n, hn, he⟩)

end Retrieval

namespace Index

open Checked (Both)

variable {ix ix' : Index α}

/-- The first objects that a query finds, each with the ledger that it was found under. -/
def findings (ix : Index α) (query : Subterm) (c : Cluster) (σ : Unifier) (limit : Nat) :
    Checked (List (α × Unifier)) := do
  let (r, _, σ) ← Retrieval.idle.reset ix query c σ
  let (found, _, _) ← r.drain σ limit
  return found

/-- In indexes with like trees a query is refused alike, or it finds the same objects under terms
that are no variables, in the same order and under the same ledgers, and then others under
variables. -/
theorem Alike.findings (alike : ix.Alike ix') (shaped : ix.Shaped) (shaped' : ix'.Shaped)
    (query : Subterm) (c : Cluster) (σ : Unifier) (limit : Nat) :
    Both (ix.ListsAlike ix' c) (ix.findings query c σ limit) (ix'.findings query c σ limit) := by
  rw [Index.findings, Index.findings, Retrieval.idle_reset, Retrieval.idle_reset]
  have roots := Retrieval.rootsBelow_both alike c (σ.deref query).head
  cases require query.isQuantifierFree .quantifiedQuery with
  | error fault => exact .refused fault
  | ok u =>
      rcases roots.cases with ⟨fault, below, below'⟩ | ⟨roots, roots', below, below', level⟩
      · rw [below, below']
        exact .refused fault
      · rw [below, below']
        have searches := Retrieval.asking_searches shaped below query σ
        have searches' := Retrieval.asking_searches shaped' below' query σ
        have abreast : Retrieval.Abreast (.asking ix query c σ roots)
            (.asking ix' query c σ roots') :=
          ⟨rfl, rfl, [_], [_], [], rfl, rfl, .cons (.mk level) .nil⟩
        refine (abreast.drain shaped shaped' searches searches' limit).bind ?_
        intro a a' lists
        exact .answered lists

/-- After every history the trees are canonical. Two histories that leave the same objects under
the same keys, as far as these are no variables, leave the same trees but for the order of
clusters at leaves, and every query lists the objects under such keys in the same order. -/
theorem changeAll_canonical {n : Nat} {start : Index α} {changes : List (Change α)}
    {answers : List (Option Nat)} (created : create n = .ok start)
    (reached : changeAll changes start = .ok (answers, ix)) :
    (∀ place, (ix.bucket place).Canonical) ∧
      ∀ changes' answers' ix', changeAll changes' start = .ok (answers', ix') →
        (∀ k : Key, (∀ v, k.spelling ≠ [.var v]) →
          (Contents.changeAll changes .empty).2 k = (Contents.changeAll changes' .empty).2 k) →
        ix.Alike ix' ∧ ∀ query c σ limit,
          Both (ix.ListsAlike ix' c) (ix.findings query c σ limit)
            (ix'.findings query c σ limit) := by
  have shaped := (holds_record created reached).shaped
  refine ⟨fun place => (shaped.bucket place).canonical, fun changes' answers' ix' reached' same => ?_⟩
  have shaped' := (holds_record created reached').shaped
  have told {changes : List (Change α)} {answers : List (Option Nat)} {ix : Index α}
      (reached : changeAll changes start = .ok (answers, ix)) :
      ix.contents = (Contents.changeAll changes .empty).2 :=
    (holds_record created reached).contents.trans (Entry.contents_foldl_change [] changes)
  have alike : ix.Alike ix' := by
    refine shaped.alike shaped' ?_ ?_
    · rw [size_buckets_changeAll reached, size_buckets_changeAll reached']
    · rwa [told reached, told reached']
  exact ⟨alike, alike.findings shaped shaped'⟩

/-- A term is stored under two clusters, in either order, and once another one is stored in
between and erased again, and once a variable is stored as well. -/
theorem changeAll_canonical_either_order :
    ∃ (fx fb query : Subterm) (start ix ix' : Index Nat) (answers answers' : List (Option Nat)),
      Subterm.ofSpelling [.symbol ⟨20, .function, 1⟩, .var ⟨0, 0⟩] = .ok fx ∧
      Subterm.ofSpelling [.symbol ⟨20, .function, 1⟩, .symbol ⟨21, .constant, 0⟩] = .ok fb ∧
      Subterm.ofSpelling [.symbol ⟨20, .function, 1⟩, .var ⟨1, 0⟩] = .ok query ∧
      create 2 = .ok start ∧
      changeAll [.insert fx (.singleton 1) 7, .insert fx .empty 8,
        .insert (.ofVariable ⟨0, 1⟩) .empty 9] start = .ok (answers, ix) ∧
      changeAll [.insert fb (.singleton 2) 5, .insert fx .empty 8, .insert fx (.singleton 1) 7,
        .erase fb (.singleton 2) (· == 5)] start = .ok (answers', ix') ∧
      (∀ place, (ix.bucket place).Canonical) ∧ ix.Alike ix' ∧
      Both (ix.ListsAlike ix' .empty) (ix.findings query .empty .empty 3)
        (ix'.findings query .empty .empty 3) := by
  obtain ⟨fx, madeFx⟩ : ∃ t, Subterm.ofSpelling
      [.symbol ⟨20, .function, 1⟩, .var ⟨0, 0⟩] = .ok t := ⟨_, rfl⟩
  obtain ⟨fb, madeFb⟩ : ∃ t, Subterm.ofSpelling
      [.symbol ⟨20, .function, 1⟩, .symbol ⟨21, .constant, 0⟩] = .ok t := ⟨_, rfl⟩
  obtain ⟨query, asks⟩ : ∃ t, Subterm.ofSpelling
      [.symbol ⟨20, .function, 1⟩, .var ⟨1, 0⟩] = .ok t := ⟨_, rfl⟩
  have plainFx : fx.isQuantifierFree = true := by cases madeFx; rfl
  have plainFb : fb.isQuantifierFree = true := by cases madeFb; rfl
  have plain : ∀ change ∈ [Change.insert fx (.singleton 1) 7, .insert fx .empty 8,
      .insert (.ofVariable ⟨0, 1⟩) .empty 9], change.term.isQuantifierFree = true := by
    simp only [List.forall_mem_cons]
    exact ⟨plainFx, plainFx, rfl, by simp⟩
  have plain' : ∀ change ∈ [Change.insert fb (.singleton 2) 5, .insert fx .empty 8,
      .insert fx (.singleton 1) 7, .erase fb (.singleton 2) (· == 5)],
      change.term.isQuantifierFree = true := by
    simp only [List.forall_mem_cons]
    exact ⟨plainFb, plainFx, plainFx, plainFb, by simp⟩
  obtain ⟨start, created, holds, closed⟩ := create_holds (α := Nat) (n := 2) (by decide)
  obtain ⟨answers, ix, reached⟩ := exists_changeAll holds closed plain
  obtain ⟨answers', ix', reached'⟩ := exists_changeAll holds closed plain'
  have same (k : Key) (compound : ∀ v, k.spelling ≠ [.var v]) :
      (Contents.changeAll [.insert fx (.singleton 1) 7, .insert fx .empty 8,
        .insert (.ofVariable ⟨0, 1⟩) .empty 9] .empty).2 k =
      (Contents.changeAll [.insert fb (.singleton 2) 5, .insert fx .empty 8,
        .insert fx (.singleton 1) 7, .erase fb (.singleton 2) (· == 5)] .empty).2 k := by
    have bare : (⟨.ofVariable ⟨0, 1⟩, .empty, 9⟩ : Entry Nat).key ≠ k := by
      rintro rfl
      exact compound _ rfl
    have apart : (⟨fx, .singleton 1, 7⟩ : Entry Nat).key ≠ (⟨fx, .empty, 8⟩ : Entry Nat).key :=
      fun same => nomatch (Key.mk.inj same).2
    have left : [Change.insert fb (.singleton 2) 5, .insert fx .empty 8,
        .insert fx (.singleton 1) 7, .erase fb (.singleton 2) (· == 5)].foldl Entry.change [] =
          [⟨fx, .empty, 8⟩, ⟨fx, .singleton 1, 7⟩] := by
      cases madeFx
      cases madeFb
      rfl
    show (Contents.changeAll _ (Entry.contents [])).2 k =
      (Contents.changeAll _ (Entry.contents [])).2 k
    rw [← Entry.contents_foldl_change, ← Entry.contents_foldl_change, left]
    show Entry.contents [⟨fx, .singleton 1, 7⟩, ⟨fx, .empty, 8⟩, ⟨.ofVariable ⟨0, 1⟩, .empty, 9⟩] k =
      Entry.contents [⟨fx, .empty, 8⟩, ⟨fx, .singleton 1, 7⟩] k
    by_cases one : (⟨fx, .singleton 1, 7⟩ : Entry Nat).key = k
    · have other : (⟨fx, .empty, 8⟩ : Entry Nat).key ≠ k := fun here => apart (one.trans here.symm)
      simp [Entry.contents, one, other, bare]
    · simp [Entry.contents, List.filter_cons, one, bare]
  obtain ⟨canonical, alike⟩ := changeAll_canonical created reached
  obtain ⟨alike, finds⟩ := alike _ _ _ reached' same
  exact ⟨fx, fb, query, start, ix, ix', answers, answers', madeFx, madeFb, asks, created, reached,
    reached', canonical, alike, finds query .empty .empty 3⟩

end Index

end SaturationCore
