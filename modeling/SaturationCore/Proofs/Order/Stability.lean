/-
# Instances of greater terms are greater

Every term weighs at least as much as a variable when all weights are at least zero and
those of symbols without arguments at least that of a variable. An instance then weighs
what the term weighs and whatever the instances of its variables weigh beyond that. If
the variables of one term cover those of another, the first gains at least as much, and
as many occurrences of every variable.

Passing to an instance replaces variables only. The first difference of two terms, if it
decides, is one of symbols and stays the first difference of their instances, which may be
of any length in front of it.
-/
import Mathlib.Algebra.Order.BigOperators.Group.List
import Mathlib.Data.List.Perm.Subperm
import SaturationCore.Proofs.Ledger.Instance
import SaturationCore.Proofs.Order.KnuthBendix

namespace SaturationCore

namespace KnuthBendix

variable {k : KnuthBendix} {alphabet : Set Symbol} {θ : Substitution} {hs as bs : List Head}

/-! ## The least weight of a term -/

/-- Variables weigh more than nothing and no more than symbols without arguments, and no
declared symbol weighs less than nothing. -/
structure Admissible (k : KnuthBendix) (alphabet : Set Symbol) : Prop where
  leastWeight_pos : 0 < k.leastWeight
  symbolWeight_nonneg : ∀ s ∈ alphabet, s.isDeclared = true → 0 ≤ k.symbolWeight s
  leastWeight_le : ∀ s ∈ alphabet, s.arity = 0 → k.leastWeight ≤ k.symbolWeight s

/-- If every head with so much for each of its arguments weighs at least as much, then several terms
weigh at least that many times as much. -/
theorem mul_le_total {n : Nat} {m : Int} (spells : Spells n hs)
    (each : ∀ h ∈ hs, m ≤ k.headWeight h + h.arity * m) : n * m ≤ k.total hs := by
  induction spells with
  | nil => simp [total]
  | @cons n h rest _ ih =>
      obtain ⟨root, inner⟩ := List.forall_mem_cons.1 each
      calc ((n + 1 : Nat) : Int) * m
          = n * m + m := by rw [Int.natCast_succ, Int.add_mul, Int.one_mul]
        _ ≤ n * m + (k.headWeight h + h.arity * m) := Int.add_le_add_left root _
        _ = k.headWeight h + (n + h.arity : Nat) * m := by
            rw [Int.natCast_add, Int.add_mul]
            omega
        _ ≤ k.headWeight h + k.total rest := Int.add_le_add_left (ih inner) _
        _ = k.total (h :: rest) := rfl

namespace Admissible

variable (admissible : k.Admissible alphabet)
include admissible

theorem symbolWeight_nonneg_of_mem {s : Symbol} (known : s ∈ alphabet) : 0 ≤ k.symbolWeight s := by
  cases declared : s.isDeclared with
  | true => exact admissible.symbolWeight_nonneg s known declared
  | false => simp [symbolWeight, declared]

/-- A head with variables for its arguments weighs at least as much as a variable. -/
theorem leastWeight_le_headWeight {h : Head} (known : ∀ s, h = .symbol s → s ∈ alphabet) :
    k.leastWeight ≤ k.headWeight h + h.arity * k.leastWeight := by
  have least := admissible.leastWeight_pos
  cases h with
  | var v => simp [headWeight, Head.arity]
  | binder v => simp [headWeight, Head.arity]
  | symbol s =>
      have inside := known s rfl
      have weight := admissible.symbolWeight_nonneg_of_mem inside
      simp only [headWeight, Head.arity]
      cases takes : s.arity with
      | zero =>
          have := admissible.leastWeight_le s inside takes
          simpa using this
      | succ n =>
          have rest : 0 ≤ (n : Int) * k.leastWeight :=
            Int.mul_nonneg (Int.natCast_nonneg n) least.le
          rw [Int.natCast_succ, Int.add_mul]
          omega

/-- Several terms weigh at least as much together as that many variables. -/
theorem mul_leastWeight_le_total {n : Nat} (spells : Spells n hs)
    (known : symbolsOf hs ⊆ alphabet) : n * k.leastWeight ≤ k.total hs := by
  refine mul_le_total spells fun h hh => admissible.leastWeight_le_headWeight ?_
  rintro s rfl
  exact known hh

/-- The instance of a variable weighs at least as much as the variable. -/
theorem leastWeight_le_total (spells : Spells 1 hs) (known : symbolsOf hs ⊆ alphabet) :
    k.leastWeight ≤ k.total hs := by
  have weight := admissible.mul_leastWeight_le_total spells known
  rwa [Int.natCast_one, Int.one_mul] at weight

end Admissible

/-! ## What passing to an instance does -/

theorem Covers.subperm (covers : Covers as bs) :
    (bs.filter Head.isVariable).Subperm (as.filter Head.isVariable) := by
  rw [List.subperm_ext_iff]
  intro h mem
  obtain ⟨-, leaf⟩ := List.mem_filter.1 mem
  rw [List.count_filter leaf, List.count_filter leaf]
  obtain ⟨v, rfl⟩ := h.exists_var_of_isVariable leaf
  exact covers v

section Sum

variable {M : Type} [AddCommMonoid M] {f : Head → M}

theorem sum_map_filter_isVariable (rigid : ∀ h, h.isVariable = false → f h = 0) (hs : List Head) :
    ((hs.filter Head.isVariable).map f).sum = (hs.map f).sum := by
  induction hs with
  | nil => rfl
  | cons h hs ih =>
      rw [List.map_cons, List.sum_cons, List.filter_cons]
      cases leaf : h.isVariable with
      | true => rw [if_pos rfl, List.map_cons, List.sum_cons, ih]
      | false => rw [if_neg Bool.false_ne_true, rigid h leaf, zero_add, ih]

/-- A sum that only variables add to is no smaller where there are more of them. -/
theorem Covers.sum_map_le [PartialOrder M] [IsOrderedAddMonoid M] (covers : Covers as bs)
    (rigid : ∀ h, h.isVariable = false → f h = 0) (nonneg : ∀ v, 0 ≤ f (.var v)) :
    (bs.map f).sum ≤ (as.map f).sum := by
  have gains (n : M) (hn : n ∈ (as.filter Head.isVariable).map f) : 0 ≤ n := by
    obtain ⟨h, mem, rfl⟩ := List.mem_map.1 hn
    obtain ⟨v, rfl⟩ := h.exists_var_of_isVariable (List.mem_filter.1 mem).2
    exact nonneg v
  -- The variables of one side are, in another order, some of those of the other.
  obtain ⟨cs, perm, sub⟩ := covers.subperm
  calc (bs.map f).sum
      = (cs.map f).sum := by rw [← sum_map_filter_isVariable rigid bs, (perm.map f).sum_eq]
    _ ≤ ((as.filter Head.isVariable).map f).sum := (sub.map f).sum_le_sum gains
    _ = (as.map f).sum := sum_map_filter_isVariable rigid as

end Sum

/-- What putting in the instance of a head adds to the weight. -/
def gain (k : KnuthBendix) (θ : Substitution) (h : Head) : Int :=
  k.total (θ.onHead h) - k.headWeight h

theorem total_instantiate (k : KnuthBendix) (θ : Substitution) (hs : List Head) :
    k.total (θ.instantiate hs) = k.total hs + (hs.map (k.gain θ)).sum := by
  induction hs with
  | nil => rfl
  | cons h hs ih =>
      rw [θ.instantiate_cons, total_append, ih, total, List.map_cons, List.sum_cons, gain]
      omega

theorem gain_of_not_isVariable {h : Head} (rigid : h.isVariable = false) : k.gain θ h = 0 := by
  rw [gain, θ.onHead_of_not_isVariable rigid, total, total, Int.add_zero, Int.sub_self]

theorem Admissible.gain_nonneg (admissible : k.Admissible alphabet) {v : Variable}
    (known : symbolsOf (θ v).spelling ⊆ alphabet) : 0 ≤ k.gain θ (.var v) :=
  Int.sub_nonneg_of_le (admissible.leastWeight_le_total (θ v).spells known)

/-- Instances keep what variables cover. -/
theorem Covers.instantiate (covers : Covers as bs) :
    Covers (θ.instantiate as) (θ.instantiate bs) := by
  intro v
  rw [Substitution.instantiate, Substitution.instantiate, List.count_flatMap, List.count_flatMap]
  refine covers.sum_map_le (fun h rigid => ?_) fun _ => Nat.zero_le _
  rw [Function.comp, θ.onHead_of_not_isVariable rigid, List.count_eq_zero, List.mem_singleton]
  rintro rfl
  cases rigid

/-- Instances keep the first difference if it decides. -/
theorem lexicographic_instantiate (greater : k.lexicographic as bs = .greater) :
    k.lexicographic (θ.instantiate as) (θ.instantiate bs) = .greater := by
  induction as generalizing bs with
  | nil => cases bs <;> simp [lexicographic] at greater
  | cons g as ih =>
      cases bs with
      | nil => simp [lexicographic] at greater
      | cons h bs =>
          rw [θ.instantiate_cons, θ.instantiate_cons]
          rw [lexicographic_cons] at greater
          by_cases same : g = h
          · rw [if_pos same] at greater
            rw [same, lexicographic_append]
            exact ih greater
          · rw [if_neg same] at greater
            obtain ⟨s, t, rfl, rfl, -⟩ := k.compareHeads_eq_greater_iff.1 greater
            rw [θ.onHead_of_not_isVariable rfl, θ.onHead_of_not_isVariable rfl,
              List.singleton_append, List.singleton_append, lexicographic_cons, if_neg same]
            exact greater

/-- Instances of a greater spelling are greater. -/
theorem Admissible.outcome_instantiate (admissible : k.Admissible alphabet)
    (known : ∀ v, symbolsOf (θ v).spelling ⊆ alphabet) (greater : k.outcome as bs = .greater) :
    k.outcome (θ.instantiate as) (θ.instantiate bs) = .greater := by
  rw [outcome_eq_greater_iff] at greater ⊢
  obtain ⟨covers, weighs⟩ := greater
  have gains : (bs.map (k.gain θ)).sum ≤ (as.map (k.gain θ)).sum :=
    covers.sum_map_le (fun _ => gain_of_not_isVariable) fun v => admissible.gain_nonneg (known v)
  refine ⟨covers.instantiate, ?_⟩
  rw [total_instantiate, total_instantiate]
  obtain heavier | ⟨level, first⟩ := weighs
  · left
    omega
  · -- The difference of symbols only decides if both sides gain the same.
    obtain more | same := gains.lt_or_eq
    · left
      omega
    · right
      exact ⟨by omega, lexicographic_instantiate first⟩

/-! ## Terms -/

/-- Under such weights, what one term exceeds another by is kept by all their instances: they can
be built, and the first exceeds the second unless a weight leaves its range. -/
theorem compare_apply {σ : TreeMatcher} {a b : Term} (admissible : k.Admissible alphabet)
    (regular : ∀ s ∈ alphabet, s.Regular) (overA : a.Over alphabet) (overB : b.Over alphabet)
    (instances : σ.Over alphabet) (greater : k.compare a b = .ok .greater) :
    ∃ a' b', σ.apply a = .ok a' ∧ σ.apply b = .ok b' ∧
      (k.compare a' b' ≠ .error .overflow → k.compare a' b' = .ok .greater) := by
  obtain ⟨θ, reads⟩ := instances.exists_reads
  obtain ⟨a', madeA, spelledA⟩ := reads.apply_eq instances regular overA
  obtain ⟨b', madeB, spelledB⟩ := reads.apply_eq instances regular overB
  have ideal := (k.yields_compare a b).eq_of_eq_ok greater
  refine ⟨a', b', madeA, madeB, fun fits => ?_⟩
  rw [(k.yields_compare a' b').eq_ok fits, spelledA, spelledB,
    admissible.outcome_instantiate (reads.symbolsOf_subset instances) ideal.symm]

theorem standard_leastWeight : standard.leastWeight = 1 := by
  decide

theorem standard_symbolWeight (s : Symbol) : standard.symbolWeight s = 1 := by
  have unit : Weight.ofConfigured 1 = 1 := standard_leastWeight
  simp [symbolWeight, standard, unit]

/-- Where everything weighs one, nothing weighs less than a variable. -/
theorem standard_admissible (alphabet : Set Symbol) : standard.Admissible alphabet := by
  refine ⟨?_, fun s _ _ => ?_, fun s _ _ => ?_⟩
  · rw [standard_leastWeight]
    exact Int.zero_lt_one
  · rw [standard_symbolWeight]
    exact Int.zero_le_ofNat 1
  · rw [standard_symbolWeight, standard_leastWeight]

/-- The later declared of two functions stays greater when the variable below them is bound to a
term in which it occurs itself. -/
theorem compare_apply_cyclic :
    let first := Signature.initial.internFunction "f" 1
    let second := first.2.internFunction "g" 1
    let x : Term := .var ⟨0, 0⟩
    let f (t : Term) : Term := .app .function first.1 [t]
    let g (t : Term) : Term := .app .function second.1 [t]
    let σ : TreeMatcher := ⟨[(⟨0, 0⟩, f x)]⟩
    standard.compare (g x) (f x) = .ok .greater ∧ σ.apply (g x) = .ok (g (f x)) ∧
      σ.apply (f x) = .ok (f (f x)) ∧ standard.compare (g (f x)) (f (f x)) = .ok .greater := by
  intro first second x f g σ
  have grown : second.2.Grown := .function "g" 1 (.function "f" 1 .initial)
  have over_f {t : Term} (known : t.Over second.2.Declares) : (f t).Over second.2.Declares :=
    .app rfl rfl (List.forall_mem_singleton.2 known)
  have over_g {t : Term} (known : t.Over second.2.Declares) : (g t).Over second.2.Declares :=
    .app rfl rfl (List.forall_mem_singleton.2 known)
  have instances : σ.Over second.2.Declares := by
    intro v t bound
    rw [Ledger.get?, List.lookup_cons] at bound
    split at bound
    · cases bound
      exact over_f (.var _)
    · cases bound
  have greater : standard.compare (g x) (f x) = .ok .greater := by decide +kernel
  have fits : standard.compare (g (f x)) (f (f x)) ≠ .error .overflow := by decide +kernel
  have applied_g : σ.apply (g x) = .ok (g (f x)) := by decide +kernel
  have applied_f : σ.apply (f x) = .ok (f (f x)) := by decide +kernel
  obtain ⟨a, b, madeA, madeB, kept⟩ := compare_apply (standard_admissible _) grown.regular
    (over_g (.var _)) (over_f (.var _)) instances greater
  cases applied_g.symm.trans madeA
  cases applied_f.symm.trans madeB
  exact ⟨greater, applied_g, applied_f, kept fits⟩

end KnuthBendix

end SaturationCore
