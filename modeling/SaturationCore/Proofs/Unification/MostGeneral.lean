/-
# Unification computes most general unifiers

From a ledger without cycles and two subterms that read without binders, the work
settles, succeeds exactly when some solution of the ledger unifies the two, and then
leaves a ledger whose solutions are those unifying solutions and no others. Without
success everything bound on the way is undone.
-/
import SaturationCore.Proofs.Unification.Budget

namespace SaturationCore

namespace Unifier

variable {σ τ : Unifier} {a b : Subterm}

/-- The ledger `τ` is `σ` extended by no more and no less than what `a` and `b` need
to read the same. -/
structure MostGeneral (σ : Unifier) (a b : Subterm) (τ : Unifier) : Prop where
  extended : τ.Extends σ
  acyclic : τ.Acyclic
  solutions : ∀ θ : Substitution, θ.Solves τ ↔ θ.Solves σ ∧ θ.Unifies a b
  applied : ∃ t, τ.apply a = .ok t ∧ τ.apply b = .ok t

theorem apply_of_read_eq (hσ : σ.Acyclic) (plain : σ.ReadsPlain a)
    (same : σ.read a.spelling = σ.read b.spelling) :
    ∃ t, σ.apply a = .ok t ∧ σ.apply b = .ok t := by
  obtain ⟨s, hs, spelled⟩ := Subterm.ofSpelling_of_spells (hσ.spells_read a.spells)
  have bare : ∀ h ∈ s.spelling, h.isBinder = false := by
    rw [spelled]
    exact plain
  obtain ⟨t, ht⟩ := s.toTerm_of_plain bare
  have applied (c : Subterm) (hc : σ.read c.spelling = σ.read a.spelling) : σ.apply c = .ok t := by
    rw [apply, instanceSpelling_eq_read, hc, hs]
    exact ht
  exact ⟨t, applied a rfl, applied b same.symm⟩

/-- Every solution of the ledger that unifies the two solves the one that was left, and
the reading of that one is such a solution. -/
theorem mostGeneral_of_turns {good : Head → Prop}
    (run : Relation.ReflTransGen Turn ([(a, b)], σ) ([], τ)) (sound : Sound [(a, b)] σ)
    (within : Within good [(a, b)] σ) : MostGeneral σ a b τ ∧ Within good [] τ := by
  obtain ⟨⟨acyclic, -⟩, withinNow, extended, carried, solutions⟩ := turns_preserve run sound within
  have exactly (θ : Substitution) : θ.Solves τ ↔ θ.Solves σ ∧ θ.Unifies a b := by
    have key := solutions θ
    simp only [Substitution.SolvesAll, List.mem_singleton, forall_eq, List.not_mem_nil,
      false_imp_iff, implies_true, and_true] at key
    exact key
  obtain ⟨ρ, hρ, reads⟩ := acyclic.exists_reading
  have same : τ.read a.spelling = τ.read b.spelling := by
    rw [← reads, ← reads]
    exact ((exactly ρ).1 hρ).2
  have plain := carried a (sound.plain _ List.mem_cons_self).1
  exact ⟨⟨extended, acyclic, exactly, apply_of_read_eq acyclic plain same⟩, withinNow⟩

theorem not_unifies_of_turns {p : Subterm × Subterm} {rest : List (Subterm × Subterm)}
    (run : Relation.ReflTransGen Turn ([(a, b)], σ) (p :: rest, τ)) (sound : Sound [(a, b)] σ)
    (stuck : ∀ next, ¬ Turn (p :: rest, τ) next) {θ : Substitution} (hθ : θ.Solves σ) :
    ¬ θ.Unifies a b := by
  intro unified
  have within : Within (fun _ => True) [(a, b)] σ := ⟨by simp, by simp⟩
  obtain ⟨soundNow, -, -, -, solutions⟩ := turns_preserve run sound within
  have now : θ.SolvesAll (p :: rest) τ := by
    refine (solutions θ).2 ⟨hθ, fun q hq => ?_⟩
    cases List.mem_singleton.1 hq
    exact unified
  rw [Substitution.solvesAll_cons] at now
  exact not_unifies_of_stuck soundNow stuck now.2.1 now.1

/-- An attempt either extends the ledger most generally or leaves it as it was, and
then nothing unifies the two. -/
theorem attempt_cases {good : Head → Prop} (sound : Sound [(a, b)] σ)
    (within : Within good [(a, b)] σ) :
    (∃ τ, σ.attempt a b = (true, τ) ∧ MostGeneral σ a b τ ∧ Within good [] τ) ∨
      (σ.attempt a b = (false, σ) ∧ ∀ θ : Substitution, θ.Solves σ → ¬ θ.Unifies a b) := by
  obtain ⟨τ, ⟨left, run, stuck, answer⟩, ledger⟩ := attempt_settles sound
  cases left with
  | nil =>
      have success := answer.2 rfl
      rw [success, if_pos rfl] at ledger
      exact .inl ⟨τ, Prod.ext success ledger, mostGeneral_of_turns run sound within⟩
  | cons p rest =>
      have failure : (σ.attempt a b).1 = false := by
        cases h : (σ.attempt a b).1 with
        | false => rfl
        | true => exact absurd (answer.1 h) (List.cons_ne_nil p rest)
      have extended := (turns_preserve run sound within).2.2.1
      rw [failure, if_neg Bool.false_ne_true, extended.truncate_eq] at ledger
      exact .inr ⟨Prod.ext failure ledger, fun θ hθ => not_unifies_of_turns run sound stuck hθ⟩

/-! ## Subterms and instances without binders -/

/-- No instance holds a quantifier or an abstraction. -/
def QuantifierFree (σ : Unifier) : Prop :=
  ∀ v t, σ.get? v = some t → t.isQuantifierFree = true

theorem quantifierFree_empty : Unifier.QuantifierFree Ledger.empty :=
  fun _ _ bound => nomatch bound

theorem QuantifierFree.push (hσ : σ.QuantifierFree) {v : Variable} {t : Subterm}
    (plain : t.isQuantifierFree = true) : Unifier.QuantifierFree (σ.push v t) :=
  Ledger.forall_get?_push hσ plain

theorem within_quantifierFree (hσ : σ.QuantifierFree) (ha : a.isQuantifierFree = true)
    (hb : b.isQuantifierFree = true) : Within (fun h => h.isBinder = false) [(a, b)] σ := by
  refine ⟨fun p hp => ?_, fun v t bound => Subterm.isQuantifierFree_iff.1 (hσ v t bound)⟩
  cases List.mem_singleton.1 hp
  exact ⟨Subterm.isQuantifierFree_iff.1 ha, Subterm.isQuantifierFree_iff.1 hb⟩

theorem QuantifierFree.readsPlain (hσ : σ.QuantifierFree) (acyclic : σ.Acyclic)
    (ha : a.isQuantifierFree = true) : σ.ReadsPlain a :=
  acyclic.forall_mem_read (fun v t bound => Subterm.isQuantifierFree_iff.1 (hσ v t bound))
    (Subterm.isQuantifierFree_iff.1 ha)

/-- Unifying subterms without binders either extends the ledger most generally, again
with such instances only, or nothing unifies the two. -/
theorem unify_cases (acyclic : σ.Acyclic) (hσ : σ.QuantifierFree)
    (ha : a.isQuantifierFree = true) (hb : b.isQuantifierFree = true) :
    (∃ τ, σ.unify a b = some τ ∧ MostGeneral σ a b τ ∧ τ.QuantifierFree) ∨
      (σ.unify a b = none ∧ ∀ θ : Substitution, θ.Solves σ → ¬ θ.Unifies a b) := by
  have sound : Sound [(a, b)] σ := by
    refine ⟨acyclic, fun p hp => ?_⟩
    cases List.mem_singleton.1 hp
    exact ⟨hσ.readsPlain acyclic ha, hσ.readsPlain acyclic hb⟩
  rcases attempt_cases sound (within_quantifierFree hσ ha hb) with
    ⟨τ, made, general, within⟩ | ⟨failed, nothing⟩
  · refine .inl ⟨τ, ?_, general,
      fun v t bound => Subterm.isQuantifierFree_iff.2 (within.2 v t bound)⟩
    rw [unify, made]
    rfl
  · refine .inr ⟨?_, nothing⟩
    rw [unify, failed]
    rfl

theorem unify_isSome_iff (acyclic : σ.Acyclic) (hσ : σ.QuantifierFree)
    (ha : a.isQuantifierFree = true) (hb : b.isQuantifierFree = true) :
    (σ.unify a b).isSome = true ↔ ∃ θ : Substitution, θ.Solves σ ∧ θ.Unifies a b := by
  rcases unify_cases acyclic hσ ha hb with ⟨τ, made, general, -⟩ | ⟨failed, nothing⟩
  · obtain ⟨ρ, hρ, -⟩ := general.acyclic.exists_reading
    rw [made]
    exact iff_of_true rfl ⟨ρ, (general.solutions ρ).1 hρ⟩
  · rw [failed]
    exact iff_of_false Bool.false_ne_true fun ⟨θ, hθ, unified⟩ => nothing θ hθ unified

/-- Unifying a variable with a subterm without binders. -/
theorem unifyVariable_cases (acyclic : σ.Acyclic) (hσ : σ.QuantifierFree)
    (ha : a.isQuantifierFree = true) (v : Variable) :
    (∃ τ, σ.unifyVariable v a = some τ ∧ τ.Extends σ ∧ τ.Acyclic ∧ τ.QuantifierFree ∧
        ∀ θ : Substitution, θ.Solves τ ↔
          θ.Solves σ ∧ θ.instantiate [.var v] = θ.instantiate a.spelling) ∨
      (σ.unifyVariable v a = none ∧
        ∀ θ : Substitution, θ.Solves σ → θ.instantiate [.var v] ≠ θ.instantiate a.spelling) := by
  have leaf := Subterm.spelling_ofVariable v
  have bare : (Subterm.ofVariable v).isQuantifierFree = true := by
    rw [Subterm.isQuantifierFree, leaf]
    rfl
  rcases unify_cases acyclic hσ bare ha with ⟨τ, made, general, quantifierFree⟩ | ⟨failed, nothing⟩
  · refine .inl ⟨τ, made, general.extended, general.acyclic, quantifierFree, fun θ => ?_⟩
    rw [general.solutions, Substitution.Unifies, leaf]
  · refine .inr ⟨failed, fun θ hθ same => nothing θ hθ ?_⟩
    rw [Substitution.Unifies, leaf]
    exact same

/-! ## The main result -/

/-- Unification settles; it succeeds exactly when some solution of the ledger unifies
the two subterms, and then extends the ledger most generally; otherwise it leaves the
ledger as it was. -/
theorem attempt_most_general (acyclic : σ.Acyclic) (ha : σ.ReadsPlain a) (hb : σ.ReadsPlain b) :
    (∃ τ, Settles [(a, b)] σ (σ.attempt a b).1 τ ∧
        (σ.attempt a b).2 = if (σ.attempt a b).1 then τ else τ.truncate σ.size) ∧
      ((σ.attempt a b).1 = true ↔ ∃ θ : Substitution, θ.Solves σ ∧ θ.Unifies a b) ∧
      ((σ.attempt a b).1 = true → MostGeneral σ a b (σ.attempt a b).2) ∧
      ((σ.attempt a b).1 = false → (σ.attempt a b).2 = σ) := by
  have sound : Sound [(a, b)] σ := by
    refine ⟨acyclic, fun p hp => ?_⟩
    cases List.mem_singleton.1 hp
    exact ⟨ha, hb⟩
  refine ⟨attempt_settles sound, ?_⟩
  have within : Within (fun _ => True) [(a, b)] σ := ⟨by simp, by simp⟩
  rcases attempt_cases sound within with ⟨τ, made, general, -⟩ | ⟨failed, nothing⟩
  · obtain ⟨ρ, hρ, -⟩ := general.acyclic.exists_reading
    rw [made]
    refine ⟨iff_of_true rfl ⟨ρ, (general.solutions ρ).1 hρ⟩, fun _ => general, ?_⟩
    exact fun contra => Bool.noConfusion contra
  · rw [failed]
    refine ⟨iff_of_false Bool.false_ne_true ?_, ?_, fun _ => rfl⟩
    · exact fun ⟨θ, hθ, unified⟩ => nothing θ hθ unified
    · exact fun contra => Bool.noConfusion contra

/-- `f(X0, X1)` and `f(X1, c)` are unified while `X0` is `X2` already. -/
theorem attempt_most_general_below_binding :
    ∃ (σ : Unifier) (a b : Subterm),
      σ = Ledger.empty.push ⟨0, 0⟩ (.ofVariable ⟨0, 2⟩) ∧
      Subterm.ofSpelling [.symbol ⟨20, .function, 2⟩, .var ⟨0, 0⟩, .var ⟨0, 1⟩] = .ok a ∧
      Subterm.ofSpelling [.symbol ⟨20, .function, 2⟩, .var ⟨0, 1⟩, .symbol ⟨21, .constant, 0⟩] =
        .ok b ∧
      (σ.Acyclic ∧ σ.ReadsPlain a ∧ σ.ReadsPlain b) ∧
      (σ.attempt a b).1 = true ∧ MostGeneral σ a b (σ.attempt a b).2 := by
  have acyclic : Unifier.Acyclic (Ledger.empty.push ⟨0, 0⟩ (.ofVariable ⟨0, 2⟩)) :=
    acyclic_empty.push rfl (by decide)
  refine ⟨_, _, _, rfl, rfl, rfl, ⟨acyclic, ?_, ?_⟩, ?_,
    (attempt_most_general acyclic ?_ ?_).2.2.1 ?_⟩
  all_goals decide +kernel

end Unifier

end SaturationCore
