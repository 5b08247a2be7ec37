/-
# A search only extends the ledger

Whatever the ledger and the query are, a search binds only variables on top of the bindings
that it was put under, and none of its savepoints lies below them. So every call leaves an
extension of the first ledger behind, and giving the search up at any moment leads back to
just that ledger.
-/
import SaturationCore.DiscriminationTree.Retrieval
import SaturationCore.Proofs.Ledger.Acyclic

namespace SaturationCore

namespace Unifier

variable {σ τ : Unifier} {v : Variable} {t : Subterm}

theorem solve_extends (bindings : Nat) (pairs : List (Subterm × Subterm)) (σ : Unifier) :
    (solve bindings pairs σ).2.Extends σ := by
  induction bindings generalizing pairs σ with
  | zero =>
      rw [solve]
      split <;> exact Ledger.Extends.refl σ
  | succ bindings ih =>
      rw [solve]
      split
      · exact Ledger.Extends.refl σ
      · exact Ledger.Extends.refl σ
      · dsimp only
        split
        · exact Ledger.Extends.refl σ
        · exact (ih _ _).trans (Ledger.extends_push σ _ _)

theorem unifyVariable_extends (unified : σ.unifyVariable v t = some τ) : τ.Extends σ := by
  have extended := solve_extends (σ.bindingBound (.ofVariable v) t) [(.ofVariable v, t)] σ
  rw [unifyVariable, unify, attempt] at unified
  generalize solve (σ.bindingBound (.ofVariable v) t) [(.ofVariable v, t)] σ = solved
    at unified extended
  obtain ⟨_ | _, υ⟩ := solved
  · cases unified
  · cases unified
    exact extended

end Unifier

namespace Passage

variable {σ τ : Unifier} {frames inner : List Frame} {descent innerDescent : Descent} {h : Head}

theorem collecting_extends {v : Variable} {heads : List Head} {missing : Nat}
    (passed : collecting σ frames v heads missing h = .ok (.descend inner innerDescent τ)) :
    τ.Extends σ := by
  rw [collecting] at passed
  split at passed
  · cases passed
    exact Ledger.Extends.refl σ
  · obtain ⟨t, -, passed⟩ := bind_eq_ok_iff.1 passed
    split at passed
    · next unified =>
        cases passed
        exact Unifier.unifyVariable_extends unified
    · cases passed

theorem comparing_extends
    (passed : comparing σ frames h = .ok (.descend inner innerDescent τ)) : τ.Extends σ := by
  rw [comparing] at passed
  split at passed
  · cases passed
  · split at passed
    · obtain ⟨_, -, passed⟩ := bind_eq_ok_iff.1 passed
      split at passed
      · next unified =>
          cases passed
          exact Unifier.unifyVariable_extends unified
      · cases passed
    · obtain ⟨_, -, passed⟩ := bind_eq_ok_iff.1 passed
      exact collecting_extends passed
    · cases passed
    · split at passed
      · split at passed
        · cases passed
        · cases passed
          exact Ledger.Extends.refl σ
      · split at passed <;> cases passed

/-- Passing a node binds at most something more. -/
theorem through_extends
    (passed : through σ frames descent h = .ok (.descend inner innerDescent τ)) : τ.Extends σ := by
  cases descent with
  | compare => exact comparing_extends passed
  | collect => exact collecting_extends passed

end Passage

namespace Retrieval

variable {α : Type} {σ τ τ' υ : Unifier} {c : Cluster} {stack stack' : List (ChoicePoint α)}
  {objects : List α} {answer : Option α} {r r' : Retrieval α} {query : Subterm}

/-- How a search of trees comes to a node with objects of the cluster, or to the end: levels are
given up when nothing is left there, or when no later sibling can fit, and of the siblings on a
level the first is passed over, entered, or has the objects. -/
inductive Advances (c : Cluster) :
    List (ChoicePoint α) → Unifier → List α → List (ChoicePoint α) → Unifier → Prop where
  | done (τ : Unifier) : Advances c [] τ [] [] τ
  | empty {frames : List Frame} {savepoint : Savepoint} {descent : Descent}
      {outer stack' : List (ChoicePoint α)} {objects : List α} {τ τ' : Unifier} :
      Advances c outer τ objects stack' τ' →
      Advances c (⟨[], frames, savepoint, descent⟩ :: outer) τ objects stack' τ'
  | leave {siblings : List (Node α)} {frames : List Frame} {savepoint : Savepoint}
      {descent : Descent} {outer stack' : List (ChoicePoint α)} {objects : List α}
      {τ υ τ' : Unifier} :
      τ.backtrackTo savepoint = .ok υ → Advances c outer υ objects stack' τ' →
      Advances c (⟨siblings, frames, savepoint, descent⟩ :: outer) τ objects stack' τ'
  | later {n : Node α} {later : List (Node α)} {frames : List Frame} {savepoint : Savepoint}
      {descent : Descent} {outer stack' : List (ChoicePoint α)} {objects : List α}
      {τ υ υ' τ' : Unifier} :
      τ.backtrackTo savepoint = .ok υ → υ'.Extends υ →
      Advances c (⟨later, frames, savepoint, descent⟩ :: outer) υ' objects stack' τ' →
      Advances c (⟨n :: later, frames, savepoint, descent⟩ :: outer) τ objects stack' τ'
  | enter {h : Head} {summary : Summary} {test : ClusterTest}
      {leaves : List (Cluster × List α)} {children later : List (Node α)}
      {frames inner : List Frame} {savepoint : Savepoint} {descent innerDescent : Descent}
      {outer stack' : List (ChoicePoint α)} {objects : List α} {τ υ υ' τ' : Unifier} :
      τ.backtrackTo savepoint = .ok υ → υ'.Extends υ → children ≠ [] →
      Advances c (⟨children, inner, υ'.savepoint, innerDescent⟩ ::
        ⟨later, frames, savepoint, descent⟩ :: outer) υ' objects stack' τ' →
      Advances c (⟨.mk h summary test leaves children :: later, frames, savepoint, descent⟩ :: outer)
        τ objects stack' τ'
  | found {h : Head} {summary : Summary} {test : ClusterTest} {leaves : List (Cluster × List α)}
      {later : List (Node α)} {frames : List Frame} {savepoint : Savepoint} {descent : Descent}
      {outer : List (ChoicePoint α)} {τ υ υ' : Unifier} :
      τ.backtrackTo savepoint = .ok υ → υ'.Extends υ →
      Advances c (⟨.mk h summary test leaves [] :: later, frames, savepoint, descent⟩ :: outer) τ
        ((leaves.lookup c).getD []) (⟨later, frames, savepoint, descent⟩ :: outer) υ'

theorem advances_of_advance (advanced : advance c stack τ = .ok (objects, stack', τ')) :
    Advances c stack τ objects stack' τ' := by
  induction stack, τ using advance.induct with
  | case1 τ =>
      rw [advance] at advanced
      cases advanced
      exact .done _
  | case2 τ frames savepoint descent outer ih =>
      rw [advance] at advanced
      exact .empty (ih advanced)
  | case3 τ h summary test leaves children later frames savepoint descent outer ihUntested ihOuter
      ihLater ihChildren =>
      rw [advance] at advanced
      obtain ⟨υ, back, advanced⟩ := bind_eq_ok_iff.1 advanced
      split at advanced
      · exact .later back (Ledger.Extends.refl υ) (ihUntested υ advanced)
      · obtain ⟨passage, passed, advanced⟩ := bind_eq_ok_iff.1 advanced
        cases passage with
        | skip => exact .later back (Ledger.Extends.refl υ) (ihLater υ advanced)
        | exhausted => exact .leave back (ihOuter υ advanced)
        | descend inner innerDescent υ' =>
            have grew := Passage.through_extends passed
            dsimp only at advanced
            split at advanced
            · next terminal =>
                obtain ⟨_, -, advanced⟩ := bind_eq_ok_iff.1 advanced
                split at advanced
                · exact .later back grew (ihLater υ' advanced)
                · cases advanced
                  obtain rfl := List.isEmpty_iff.1 terminal
                  exact .found back grew
            · next more =>
                exact .enter back grew (fun none => more (List.isEmpty_iff.2 none))
                  (ihChildren inner innerDescent υ' advanced)

/-- No savepoint of the levels lies below a ledger. -/
def Above (σ : Unifier) (stack : List (ChoicePoint α)) : Prop :=
  ∀ cp ∈ stack, σ.size ≤ cp.savepoint.bindings

theorem Advances.extends (advances : Advances c stack τ objects stack' τ') (above : Above σ stack)
    (grew : τ.Extends σ) : Above σ stack' ∧ τ'.Extends σ := by
  induction advances with
  | done => exact ⟨above, grew⟩
  | empty _ ih => exact ih (List.forall_mem_cons.1 above).2 grew
  | leave back _ ih =>
      obtain ⟨here, outer⟩ := List.forall_mem_cons.1 above
      exact ih outer (grew.of_backtrackTo here back)
  | later back grown _ ih =>
      obtain ⟨here, outer⟩ := List.forall_mem_cons.1 above
      exact ih (List.forall_mem_cons.2 ⟨here, outer⟩)
        (grown.trans (grew.of_backtrackTo here back))
  | enter back grown _ _ ih =>
      obtain ⟨here, outer⟩ := List.forall_mem_cons.1 above
      have grew := grown.trans (grew.of_backtrackTo here back)
      exact ih (List.forall_mem_cons.2 ⟨grew.size_le, List.forall_mem_cons.2 ⟨here, outer⟩⟩) grew
  | found back grown =>
      obtain ⟨here, outer⟩ := List.forall_mem_cons.1 above
      exact ⟨List.forall_mem_cons.2 ⟨here, outer⟩, grown.trans (grew.of_backtrackTo here back)⟩

theorem advance_extends (above : Above σ stack) (grew : τ.Extends σ)
    (advanced : advance c stack τ = .ok (objects, stack', τ')) :
    Above σ stack' ∧ τ'.Extends σ :=
  (advances_of_advance advanced).extends above grew

/-- Trying bare variables comes to the objects of one of them, under an extension of the ledger,
or undoes everything. -/
def Sweeps (σ : Unifier) (r : Retrieval α) (bare : List (Variable × List α))
    (result : Checked (Option α × Retrieval α × Unifier)) : Prop :=
  result = .ok (none, { r with phase := .done }, σ) ∨
    ∃ v object pending rest τ,
      result = .ok (some object, { r with phase := .sweeping rest pending }, τ) ∧
      τ.Extends σ ∧ (v, object :: pending) :: rest <:+ bare

theorem Sweeps.behind {first : Variable × List α} {rest : List (Variable × List α)}
    {result : Checked (Option α × Retrieval α × Unifier)} (sweeps : Sweeps σ r rest result) :
    Sweeps σ r (first :: rest) result := by
  rcases sweeps with nothing | ⟨v, object, pending, rest', τ, found, grew, later⟩
  · exact .inl nothing
  · exact .inr ⟨v, object, pending, rest', τ, found, grew, later.trans (List.suffix_cons _ _)⟩

theorem sweep_sweeps (start_eq : r.start = σ.savepoint) (bare : List (Variable × List α))
    (grew : τ.Extends σ) : Sweeps σ r bare (r.sweep bare τ) := by
  have back {τ : Unifier} (grew : τ.Extends σ) : τ.backtrackTo r.start = .ok σ := by
    rw [start_eq, grew.backtrackTo_eq]
  induction bare generalizing τ with
  | nil =>
      rw [sweep, back grew]
      exact .inl rfl
  | cons first rest ih =>
      obtain ⟨v, objects⟩ := first
      rw [sweep, back grew]
      simp only [bind, Except.bind]
      cases unified : r.query.bind (σ.unifyVariable v) with
      | none => exact (ih (Ledger.Extends.refl σ)).behind
      | some υ =>
          obtain ⟨q, -, unified⟩ := Option.bind_eq_some_iff.1 unified
          have grew := Unifier.unifyVariable_extends unified
          cases objects with
          | nil => exact (ih grew).behind
          | cons object pending =>
              exact .inr ⟨v, object, pending, rest, υ, rfl, grew, List.suffix_refl _⟩

/-- What a call comes to: nothing more, an object that waits at the node reached last, the first
one at the next node, or, once the trees are searched, one at a bare variable. -/
inductive Gives (r : Retrieval α) (τ : Unifier) : Option α → Retrieval α → Unifier → Prop where
  | nothing : Gives r τ none r τ
  | waiting {stack : List (ChoicePoint α)} {object : α} {pending : List α} :
      r.phase = .tree stack (object :: pending) →
      Gives r τ (some object) { r with phase := .tree stack pending } τ
  | reached {stack stack' : List (ChoicePoint α)} {object : α} {pending : List α} {τ' : Unifier} :
      r.phase = .tree stack [] →
      advance r.cluster stack τ = .ok (object :: pending, stack', τ') →
      Gives r τ (some object) { r with phase := .tree stack' pending } τ'
  | behind {stack stack' : List (ChoicePoint α)} {υ υ' τ' : Unifier} {answer : Option α}
      {r' : Retrieval α} :
      r.phase = .tree stack [] → advance r.cluster stack τ = .ok ([], stack', υ) →
      υ.backtrackTo r.start = .ok υ' → r.sweep r.bareVariables υ' = .ok (answer, r', τ') →
      Gives r τ answer r' τ'
  | bare {rest : List (Variable × List α)} {object : α} {pending : List α} :
      r.phase = .sweeping rest (object :: pending) →
      Gives r τ (some object) { r with phase := .sweeping rest pending } τ
  | swept {rest : List (Variable × List α)} {τ' : Unifier} {answer : Option α}
      {r' : Retrieval α} :
      r.phase = .sweeping rest [] → r.sweep rest τ = .ok (answer, r', τ') → Gives r τ answer r' τ'

theorem gives_of_next (given : r.next τ = .ok (answer, r', τ')) : Gives r τ answer r' τ' := by
  rw [next] at given
  split at given
  · cases given
    exact .nothing
  · cases given
    exact .nothing
  · next phase =>
      cases given
      exact .waiting phase
  · next phase =>
      obtain ⟨⟨objects, stack', υ⟩, advanced, given⟩ := bind_eq_ok_iff.1 given
      cases objects with
      | nil =>
          obtain ⟨υ', back, swept⟩ := bind_eq_ok_iff.1 given
          exact .behind phase advanced back swept
      | cons object pending =>
          cases given
          exact .reached phase advanced
  · next phase =>
      cases given
      exact .bare phase
  · next phase => exact .swept phase given

/-- A new search gives nothing up before it is put to an index. -/
theorem idle_reset (ix : Index α) (query : Subterm) (c : Cluster) (σ : Unifier) :
    idle.reset ix query c σ = (do
      require query.isQuantifierFree .quantifiedQuery
      let roots ← rootsBelow ix c (σ.deref query).head
      return (asking ix query c σ roots, { ix with openRetrievals := ix.openRetrievals + 1 }, σ)) := by
  rfl

/-- An open search that was put under a ledger, and what it made of it. -/
structure Since (σ : Unifier) (r : Retrieval α) (τ : Unifier) : Prop where
  isOpen : r.isOpen = true
  active : r.phase ≠ .idle
  start_eq : r.start = σ.savepoint
  extended : τ.Extends σ
  above : ∀ stack pending, r.phase = .tree stack pending → Above σ stack

namespace Since

theorem asking (ix : Index α) (query : Subterm) (c : Cluster) (σ : Unifier)
    (roots : List (Node α)) : Since σ (asking ix query c σ roots) σ where
  isOpen := rfl
  active := nofun
  start_eq := rfl
  extended := Ledger.Extends.refl σ
  above _ _ phase cp h := by
    cases phase
    rw [List.mem_singleton.1 h]
    exact Nat.le_refl _

/-- The search with the first ledger back. -/
theorem rewound (since : Since σ r τ) : Since σ r σ :=
  ⟨since.isOpen, since.active, since.start_eq, Ledger.Extends.refl σ, since.above⟩

/-- The search in another phase. -/
theorem still (since : Since σ r τ) {phase : Phase α} (active : phase ≠ .idle)
    (grew : τ'.Extends σ) (above : ∀ stack pending, phase = .tree stack pending → Above σ stack) :
    Since σ { r with phase } τ' :=
  ⟨since.isOpen, active, since.start_eq, grew, above⟩

theorem sweep (since : Since σ r τ) {bare : List (Variable × List α)}
    (swept : r.sweep bare τ = .ok (answer, r', τ')) : Since σ r' τ' := by
  rcases sweep_sweeps since.start_eq bare since.extended with swept' |
    ⟨v, object, pending, rest, υ, swept', grew, -⟩
  · cases swept.symm.trans swept'
    exact since.still nofun (Ledger.Extends.refl _) nofun
  · cases swept.symm.trans swept'
    exact since.still nofun grew nofun

/-- At the end of the trees the first ledger comes back. -/
theorem back_eq (since : Since σ r τ) {stack' : List (ChoicePoint α)}
    (phase : r.phase = .tree stack []) (advanced : advance r.cluster stack τ = .ok ([], stack', υ))
    (back : υ.backtrackTo r.start = .ok τ') : τ' = σ := by
  have grew := (advance_extends (since.above _ _ phase) since.extended advanced).2
  rw [since.start_eq, grew.backtrackTo_eq] at back
  exact (Except.ok.inj back).symm

/-- A call leaves the bindings of the first ledger alone. -/
theorem next (since : Since σ r τ) (given : r.next τ = .ok (answer, r', τ')) : Since σ r' τ' := by
  cases gives_of_next given with
  | nothing => exact since
  | waiting phase =>
      refine since.still nofun since.extended fun _ _ same => ?_
      cases same
      exact since.above _ _ phase
  | reached phase advanced =>
      obtain ⟨above, grew⟩ := advance_extends (since.above _ _ phase) since.extended advanced
      refine since.still nofun grew fun _ _ same => ?_
      cases same
      exact above
  | behind phase advanced back swept =>
      rw [since.back_eq phase advanced back] at swept
      exact since.rewound.sweep swept
  | bare => exact since.still nofun since.extended nofun
  | swept _ swept => exact since.sweep swept

/-- Giving the search up leads back to the first ledger. -/
theorem finish (since : Since σ r τ) (ix : Index α) :
    r.finish ix τ = .ok (idle, r.release ix, σ) := by
  have back : τ.backtrackTo r.start = .ok σ := by
    rw [since.start_eq, since.extended.backtrackTo_eq]
  rw [Retrieval.finish, back]
  split
  · next idle => exact absurd idle since.active
  · rfl

end Since

end Retrieval

end SaturationCore
