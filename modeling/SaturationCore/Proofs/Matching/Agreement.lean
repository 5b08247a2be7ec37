/-
# The ways to match agree

The ways to match differ in two tests: in how an instance that is found has to agree with a target,
and in which targets a variable takes. On subterms, nothing else sets a ledger that is read
transitively apart from one that is read one level deep.

Where no variable is on both sides, the tests come out alike. From the empty ledger on, only
variables of the pattern are bound, and to parts of the target. So the variables in instances and
targets are unbound, these read as they stand, and a variable of the pattern is not in them.
Matching then goes the same in both ledgers, and as on trees anyway. What it binds is also a
solution that makes both sides the same, so whatever matches can be unified.
-/
import SaturationCore.Proofs.Matching.Cycles
import SaturationCore.Proofs.Matching.OneWay
import SaturationCore.Proofs.Unification.MostGeneral

namespace SaturationCore

/-! ## Other tests -/

/-- No variable is at leaves of both. -/
def Subterm.Separate (s t : Subterm) : Prop :=
  ∀ h ∈ s.spelling, h.isVariable = true → h ∉ t.spelling

instance (s t : Subterm) : Decidable (s.Separate t) :=
  inferInstanceAs (Decidable (∀ h ∈ _, _ → _))

namespace Unifier

variable {σ : Unifier} {pattern target : Subterm} {pairs : List (Subterm × Subterm)}
  {hs : List Head}

/-- What holds between the steps from the empty ledger on: no cycle is closed, and only variables of
the pattern are bound, to parts of the target. -/
structure Drawn (pattern target : Subterm) (state : List (Subterm × Subterm) × Unifier) : Prop
    extends Untangled pattern target state where
  bindings : ∀ v i, state.2.get? v = some i →
    .var v ∈ pattern.spelling ∧ i.spelling ⊆ target.spelling

theorem Drawn.step {s s' : List (Subterm × Subterm) × Unifier} (drawn : Drawn pattern target s)
    (step : matching.Step s s') : Drawn pattern target s' := by
  refine ⟨drawn.toUntangled.step step, ?_⟩
  cases step with
  | agree => exact drawn.bindings
  | @bind τ p t rest v root =>
      obtain ⟨hp, ht⟩ := drawn.parts (p, t) List.mem_cons_self
      have root : p.head = .var v := root
      exact Ledger.forall_get?_push drawn.bindings ⟨hp (root ▸ p.head_mem_spelling), ht⟩
  | descend => exact drawn.bindings

theorem Drawn.run {s s' : List (Subterm × Subterm) × Unifier} (drawn : Drawn pattern target s)
    (run : matching.Run s s') : Drawn pattern target s' := by
  induction run with
  | refl => exact drawn
  | tail _ step ih => exact ih.step step

end Unifier

/-! ## All ways to match -/

end SaturationCore
