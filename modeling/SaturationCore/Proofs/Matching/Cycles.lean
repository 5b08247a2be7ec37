/-
# When matching closes no cycle

Matching with a ledger that is read transitively refuses a target that mentions the
variable it is to be bound to. This keeps single bindings from being their own instance,
but it sees neither what the target reads as nor what the variables of the pattern become
later on. So a pattern whose variables show in the target can close a cycle: of `f(X, Y)`
and `f(Y, X)`, each variable becomes the other.

Where no variable of the pattern shows in what the target reads as, none ever does, since
only such variables are bound and they are bound to parts of the target. The ledger is
then without cycles whatever the answer.
-/
import SaturationCore.Proofs.Ledger.Reading
import SaturationCore.Proofs.Matching.Step

namespace SaturationCore

namespace Unifier

variable {σ τ : Unifier} {pattern target : Subterm}

/-- The way to match subterms in a ledger that is read transitively. -/
abbrev matching : Matching Subterm :=
  Subterm.matching equal fun v t => !t.mentions v && t.isQuantifierFree

instance (σ : Unifier) (u w : Variable) : Decidable (σ.Leads u w) :=
  decidable_of_iff (∃ t ∈ σ.get? u, .var w ∈ t.spelling) Iff.rfl

/-- No variable of the pattern shows in what the target reads as. -/
def Apart (σ : Unifier) (pattern target : Subterm) : Prop :=
  ∀ h ∈ pattern.spelling, h.isVariable = true → h ∉ σ.read target.spelling

instance (σ : Unifier) (pattern target : Subterm) : Decidable (σ.Apart pattern target) :=
  inferInstanceAs (Decidable (∀ h ∈ _, _ → _))

/-- What holds between the steps of an attempt to match: the ledger has no cycles, the pairs
are parts of the pattern and the target, and these stay apart. -/
structure Untangled (pattern target : Subterm) (state : List (Subterm × Subterm) × Unifier) :
    Prop where
  acyclic : Acyclic state.2
  apart : Apart state.2 pattern target
  parts : ∀ p ∈ state.1, p.1.spelling ⊆ pattern.spelling ∧ p.2.spelling ⊆ target.spelling

/-- Binding a variable of the pattern to a part of the target closes no cycle and makes no
variable of the pattern show. -/
theorem Untangled.push {v : Variable} {t : Subterm} {pairs : List (Subterm × Subterm)}
    (untangled : Untangled pattern target (pairs, σ)) (hv : .var v ∈ pattern.spelling)
    (unbound : σ.get? v = none) (ht : t.spelling ⊆ target.spelling) :
    Untangled pattern target (pairs, σ.push v t) := by
  obtain ⟨acyclic, apart, parts⟩ := untangled
  have fresh : .var v ∉ σ.read t.spelling := fun shows =>
    apart _ hv rfl (read_subset ht shows)
  refine ⟨acyclic.push unbound fresh, ?_, parts⟩
  intro h hh leaf shows
  rcases acyclic.mem_read_push unbound fresh shows with shows | shows
  · exact apart h hh leaf shows
  · exact apart h hh leaf (read_subset ht shows)

theorem Untangled.step {s s' : List (Subterm × Subterm) × Unifier}
    (untangled : Untangled pattern target s) (step : matching.Step s s') :
    Untangled pattern target s' := by
  have others {p : Subterm × Subterm} {rest : List (Subterm × Subterm)} {τ : Unifier}
      (u : Untangled pattern target (p :: rest, τ)) : Untangled pattern target (rest, τ) :=
    ⟨u.acyclic, u.apart, (List.forall_mem_cons.1 u.parts).2⟩
  cases step with
  | agree => exact others untangled
  | @bind τ p t rest v root unbound =>
      obtain ⟨hp, ht⟩ := untangled.parts (p, t) List.mem_cons_self
      have root : p.head = .var v := root
      exact (others untangled).push (hp (root ▸ p.head_mem_spelling)) unbound ht
  | @descend τ p t rest f =>
      obtain ⟨hp, ht⟩ := untangled.parts (p, t) List.mem_cons_self
      refine ⟨untangled.acyclic, untangled.apart, fun pair h => ?_⟩
      rcases List.mem_append.1 h with h | h
      · have inside := List.of_mem_zip (List.mem_reverse.1 h)
        exact ⟨List.Subset.trans (Subterm.spelling_subset_of_mem_args inside.1) hp,
          List.Subset.trans (Subterm.spelling_subset_of_mem_args inside.2) ht⟩
      · exact (others untangled).parts pair h

theorem Untangled.run {s s' : List (Subterm × Subterm) × Unifier}
    (untangled : Untangled pattern target s) (run : matching.Run s s') :
    Untangled pattern target s' := by
  induction run with
  | refl => exact untangled
  | tail _ step ih => exact ih.step step

/-- After matching, whether it succeeds or fails, a ledger without cycles still has none, if no
variable of the pattern shows in what the target reads as. -/
theorem acyclic_attemptMatch (acyclic : σ.Acyclic) (apart : σ.Apart pattern target) :
    Acyclic (σ.attemptMatch pattern target).2 := by
  have start : Untangled pattern target ([(pattern, target)], σ) := by
    refine ⟨acyclic, apart, ?_⟩
    rw [List.forall_mem_singleton]
    exact ⟨List.Subset.refl _, List.Subset.refl _⟩
  rcases (Subterm.matchPairs_settles _ _ [(pattern, target)] σ).settle with
    ⟨τ, matched, run⟩ | ⟨failed, -⟩
  · rw [attemptMatch, matched]
    exact (start.run run).acyclic
  · rw [attemptMatch, failed]
    exact acyclic

/-- `f(X0, X1)` is matched with `f(X1, c)` while `X1` is `c` already. The variable of both sides
is bound, so it does no harm. -/
theorem acyclic_attemptMatch_shared :
    ∃ (c p t : Subterm) (σ : Unifier),
      Subterm.ofSpelling [.symbol ⟨21, .constant, 0⟩] = .ok c ∧
      Subterm.ofSpelling [.symbol ⟨20, .function, 2⟩, .var ⟨0, 0⟩, .var ⟨0, 1⟩] = .ok p ∧
      Subterm.ofSpelling [.symbol ⟨20, .function, 2⟩, .var ⟨0, 1⟩, .symbol ⟨21, .constant, 0⟩] =
        .ok t ∧
      σ = Ledger.empty.push ⟨0, 1⟩ c ∧ (σ.Acyclic ∧ σ.Apart p t) ∧
      (σ.attemptMatch p t).1 = true ∧ Acyclic (σ.attemptMatch p t).2 := by
  have acyclic (c : Subterm) (hc : .var ⟨0, 1⟩ ∉ Unifier.read .empty c.spelling) :
      Unifier.Acyclic (Ledger.empty.push ⟨0, 1⟩ c) := acyclic_empty.push rfl hc
  refine ⟨_, _, _, _, rfl, rfl, rfl, rfl, ⟨acyclic _ ?_, ?_⟩, ?_,
    acyclic_attemptMatch (acyclic _ ?_) ?_⟩
  · decide +kernel
  · decide +kernel
  · decide +kernel
  · decide +kernel
  · decide +kernel

/-- Matching `f(X0, X1)` with `f(X1, X0)` makes each variable the other, although the ledger is
empty before. -/
theorem attemptMatch_closes_cycle :
    ∃ (p t : Subterm) (τ : Unifier),
      Subterm.ofSpelling [.symbol ⟨8, .function, 2⟩, .var ⟨0, 0⟩, .var ⟨0, 1⟩] = .ok p ∧
      Subterm.ofSpelling [.symbol ⟨8, .function, 2⟩, .var ⟨0, 1⟩, .var ⟨0, 0⟩] = .ok t ∧
      Unifier.Acyclic .empty ∧ Unifier.attemptMatch .empty p t = (true, τ) ∧ ¬ τ.Acyclic := by
  refine ⟨_, _, _, rfl, rfl, acyclic_empty, Prod.ext ?_ rfl, fun acyclic => ?_⟩
  · decide +kernel
  · refine acyclic ⟨0, 0⟩ (.head (b := ⟨0, 1⟩) ?_ (.single ?_))
    · decide +kernel
    · decide +kernel

end Unifier

end SaturationCore
