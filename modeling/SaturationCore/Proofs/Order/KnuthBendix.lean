/-
# The Knuth-Bendix ordering is strict

Whatever weights and ranks are configured, comparing spellings is a strict comparison:
it answers alike from both sides, calls a spelling equivalent to itself only, and is
transitive. A spelling exceeds another when its variables cover those of the other and it
weighs more, or weighs the same and has the greater symbol at the first difference. Each
of the three parts is transitive by itself, and where two first differences lie at
different places, the earlier one is that of the outer two spellings.

Well-formed terms are determined by their spellings, so the ordering of terms is strict
as well.
-/
import SaturationCore.Proofs.Order.Comparison
import SaturationCore.Proofs.Order.Weight
import SaturationCore.Proofs.WellFormed

namespace SaturationCore

namespace KnuthBendix

variable (k : KnuthBendix)

/-! ## Precedence -/

theorem precedence_swap (s t : Symbol) : (k.precedence s t).swap = k.precedence t s := by
  simp only [precedence, Ordering.swap_then, Nat.compare_swap, apply_ite Ordering.swap,
    Bool.and_comm]

/-- The place of a symbol among those that are as logical as itself. -/
def level (s : Symbol) : Nat :=
  if s.isDeclared then k.rank s else s.kind.rank

theorem precedence_eq_gt_iff {s t : Symbol} :
    k.precedence s t = .gt ↔ t.kind.isLogical.toNat < s.kind.isLogical.toNat ∨
      t.kind.isLogical.toNat = s.kind.isLogical.toNat ∧
        (k.level t < k.level s ∨ k.level s = k.level t ∧ t.id < s.id) := by
  cases logical : s.kind.isLogical <;> cases logical' : t.kind.isLogical <;>
    simp [precedence, level, Symbol.isDeclared, logical, logical', Ordering.then_eq_gt,
      Nat.compare_eq_gt]

theorem precedence_gt_trans {s t u : Symbol} (first : k.precedence s t = .gt)
    (second : k.precedence t u = .gt) : k.precedence s u = .gt := by
  rw [precedence_eq_gt_iff] at *
  omega

/-! ## The first difference -/

/-- What two different heads at one place decide. -/
def compareHeads : Head → Head → TermOrdering
  | .symbol s, .symbol t =>
    match k.precedence s t with
    | .gt => .greater
    | .lt => .smaller
    | .eq => .incomparable
  | _, _ => .incomparable

theorem compareHeads_symbol (s t : Symbol) : k.compareHeads (.symbol s) (.symbol t) =
    match k.precedence s t with
    | .gt => .greater
    | .lt => .smaller
    | .eq => .incomparable := rfl

theorem compareHeads_ne_equivalent (g h : Head) : k.compareHeads g h ≠ .equivalent := by
  cases g with
  | symbol s =>
      cases h with
      | symbol t =>
          rw [compareHeads_symbol]
          cases k.precedence s t <;> exact TermOrdering.noConfusion
      | var v => exact TermOrdering.noConfusion
      | binder v => exact TermOrdering.noConfusion
  | var u => cases h <;> exact TermOrdering.noConfusion
  | binder u => cases h <;> exact TermOrdering.noConfusion

theorem flip_compareHeads (g h : Head) : (k.compareHeads g h).flip = k.compareHeads h g := by
  cases g with
  | symbol s =>
      cases h with
      | symbol t =>
          rw [compareHeads_symbol, compareHeads_symbol, ← k.precedence_swap s t]
          cases k.precedence s t <;> rfl
      | var v => rfl
      | binder v => rfl
  | var u => cases h <;> rfl
  | binder u => cases h <;> rfl

theorem compareHeads_eq_greater_iff {g h : Head} :
    k.compareHeads g h = .greater ↔
      ∃ s t, g = .symbol s ∧ h = .symbol t ∧ k.precedence s t = .gt := by
  cases g with
  | symbol s =>
      cases h with
      | symbol t =>
          rw [compareHeads_symbol]
          cases answer : k.precedence s t <;> simp [answer]
      | var v => exact iff_of_false TermOrdering.noConfusion (by simp)
      | binder v => exact iff_of_false TermOrdering.noConfusion (by simp)
  | var u => exact iff_of_false TermOrdering.noConfusion (by simp)
  | binder u => exact iff_of_false TermOrdering.noConfusion (by simp)

theorem compareHeads_greater_trans {f g h : Head} (first : k.compareHeads f g = .greater)
    (second : k.compareHeads g h = .greater) : k.compareHeads f h = .greater := by
  rw [compareHeads_eq_greater_iff] at *
  obtain ⟨s, t, rfl, rfl, upper⟩ := first
  obtain ⟨_, u, ⟨⟩, rfl, lower⟩ := second
  exact ⟨s, u, rfl, rfl, k.precedence_gt_trans upper lower⟩

theorem compareHeads_self (h : Head) : k.compareHeads h h = .incomparable := by
  cases h with
  | symbol s => simp [compareHeads_symbol, precedence]
  | var v => rfl
  | binder v => rfl

/-- Equal heads are passed over, others decide. -/
theorem lexicographic_cons (g h : Head) (as bs : List Head) :
    k.lexicographic (g :: as) (h :: bs) =
      if g = h then k.lexicographic as bs else k.compareHeads g h := by
  cases g with
  | symbol s =>
      cases h with
      | symbol t =>
          by_cases same : s = t
          · rw [lexicographic, if_pos same, if_pos (congrArg Head.symbol same)]
          · rw [lexicographic, if_neg same, if_neg (mt Head.symbol.inj same)]
            rfl
      | var v => rfl
      | binder v => rfl
  | var u => cases h <;> simp [lexicographic, compareHeads]
  | binder u => cases h <;> simp [lexicographic, compareHeads]

theorem lexicographic_append (front as bs : List Head) :
    k.lexicographic (front ++ as) (front ++ bs) = k.lexicographic as bs := by
  induction front with
  | nil => rfl
  | cons h front ih => rw [List.cons_append, List.cons_append, lexicographic_cons, if_pos rfl, ih]

theorem lexicographic_nil_cons (h : Head) (hs : List Head) :
    k.lexicographic [] (h :: hs) = .incomparable := rfl

theorem lexicographic_cons_nil (h : Head) (hs : List Head) :
    k.lexicographic (h :: hs) [] = .incomparable := by
  cases h <;> rfl

theorem lexicographic_eq_equivalent_iff {as bs : List Head} :
    k.lexicographic as bs = .equivalent ↔ as = bs := by
  induction as generalizing bs with
  | nil =>
      cases bs with
      | nil => exact iff_of_true rfl rfl
      | cons h bs => simp [lexicographic_nil_cons]
  | cons g as ih =>
      cases bs with
      | nil => simp [lexicographic_cons_nil]
      | cons h bs =>
          rw [lexicographic_cons, List.cons.injEq, ← ih]
          by_cases same : g = h
          · simp [same]
          · simp [same, compareHeads_ne_equivalent]

theorem flip_lexicographic (as bs : List Head) :
    (k.lexicographic as bs).flip = k.lexicographic bs as := by
  induction as generalizing bs with
  | nil =>
      cases bs with
      | nil => rfl
      | cons h bs =>
          rw [lexicographic_nil_cons, lexicographic_cons_nil]
          rfl
  | cons g as ih =>
      cases bs with
      | nil =>
          rw [lexicographic_nil_cons, lexicographic_cons_nil]
          rfl
      | cons h bs =>
          rw [lexicographic_cons, lexicographic_cons]
          by_cases same : g = h
          · rw [if_pos same, if_pos same.symm, ih]
          · rw [if_neg same, if_neg (Ne.symm same), flip_compareHeads]

theorem lexicographic_greater_trans {as bs cs : List Head}
    (first : k.lexicographic as bs = .greater) (second : k.lexicographic bs cs = .greater) :
    k.lexicographic as cs = .greater := by
  induction as generalizing bs cs with
  | nil => cases bs <;> cases first
  | cons f as ih =>
      cases bs with
      | nil =>
          rw [lexicographic_cons_nil] at first
          cases first
      | cons g bs =>
          cases cs with
          | nil =>
              rw [lexicographic_cons_nil] at second
              cases second
          | cons h cs =>
              rw [lexicographic_cons] at *
              -- The places of the two differences are compared at the first heads.
              by_cases fg : f = g
              · rw [if_pos fg] at first
                subst fg
                by_cases fh : f = h
                · rw [if_pos fh] at second ⊢
                  exact ih first second
                · rw [if_neg fh] at second ⊢
                  exact second
              · rw [if_neg fg] at first
                by_cases gh : g = h
                · subst gh
                  rw [if_neg fg]
                  exact first
                · rw [if_neg gh] at second
                  have outer := k.compareHeads_greater_trans first second
                  have apart : f ≠ h := by
                    rintro rfl
                    rw [compareHeads_self] at outer
                    cases outer
                  rw [if_neg apart]
                  exact outer

/-! ## The outcome -/

/-- Every variable occurs on the left at least as often as on the right. -/
def Covers (as bs : List Head) : Prop :=
  ∀ v, bs.count (.var v) ≤ as.count (.var v)

theorem Covers.mem {as bs : List Head} (covers : Covers as bs) {v : Variable}
    (hv : .var v ∈ bs) : .var v ∈ as :=
  List.count_pos_iff.1 ((List.count_pos_iff.2 hv).trans_le (covers v))

theorem someMore_eq_false_iff {as bs : List Head} : someMore bs as = false ↔ Covers as bs := by
  rw [← Bool.not_eq_true, someMore_iff]
  simp only [not_exists, Nat.not_lt, Covers]

theorem settle_eq_greater_iff {c : Int} {left right : Bool} {as bs : List Head} :
    k.settle (WeightPolynomial.classify c left right) as bs = .greater ↔
      right = false ∧ (0 < c ∨ c = 0 ∧ k.lexicographic as bs = .greater) := by
  obtain above | level | below := lt_trichotomy 0 c
  · cases left <;> cases right <;>
      simp [WeightPolynomial.classify, settle, above, above.ne', above.not_gt]
  · subst level
    cases left <;> cases right <;> simp [WeightPolynomial.classify, settle, ite_eq_iff]
  · cases left <;> cases right <;>
      simp [WeightPolynomial.classify, settle, below, below.ne, below.not_gt]

/-- A spelling exceeds another when its variables cover those of the other and it weighs more,
or weighs the same and is greater at the first difference. -/
theorem outcome_eq_greater_iff {as bs : List Head} :
    k.outcome as bs = .greater ↔ Covers as bs ∧
      (k.total bs < k.total as ∨ k.total bs = k.total as ∧ k.lexicographic as bs = .greater) := by
  rw [outcome, settle_eq_greater_iff, someMore_eq_false_iff, Int.sub_pos, Int.sub_eq_zero,
    @eq_comm _ (k.total as)]

theorem flip_classify (c : Int) (left right : Bool) :
    (WeightPolynomial.classify c left right).flip = WeightPolynomial.classify (-c) right left := by
  obtain above | level | below := lt_trichotomy 0 c
  · cases left <;> cases right <;>
      simp [WeightPolynomial.classify, WeightComparison.flip, above, above.ne', above.not_gt]
  · subst level
    cases left <;> cases right <;> simp [WeightPolynomial.classify, WeightComparison.flip]
  · cases left <;> cases right <;>
      simp [WeightPolynomial.classify, WeightComparison.flip, below, below.ne, below.not_gt]

theorem flip_settle (weights : WeightComparison) (as bs : List Head) :
    (k.settle weights as bs).flip = k.settle weights.flip bs as := by
  cases weights <;> simp only [settle, WeightComparison.flip, ← k.flip_lexicographic as bs] <;>
    cases k.lexicographic as bs <;> rfl

theorem flip_outcome (as bs : List Head) : (k.outcome as bs).flip = k.outcome bs as := by
  rw [outcome, flip_settle, flip_classify, Int.neg_sub, outcome]

theorem outcome_eq_equivalent_iff {as bs : List Head} :
    k.outcome as bs = .equivalent ↔ as = bs := by
  constructor
  · rw [outcome, ← k.lexicographic_eq_equivalent_iff]
    cases WeightPolynomial.classify (k.total as - k.total bs) (someMore as bs) (someMore bs as) with
    | alwaysEquivalent => exact id
    | smallerOrEquivalent => simp [settle, ite_eq_iff]
    | greaterOrEquivalent => simp [settle, ite_eq_iff]
    | alwaysSmaller => exact TermOrdering.noConfusion
    | alwaysGreater => exact TermOrdering.noConfusion
    | volatile => exact TermOrdering.noConfusion
  · rintro rfl
    have covered : someMore as as = false := someMore_eq_false_iff.2 fun _ => le_rfl
    rw [outcome, covered, Int.sub_self]
    exact k.lexicographic_eq_equivalent_iff.2 rfl

/-- Spellings are compared strictly. -/
theorem outcome_strict : Comparison.Strict k.outcome where
  flip_eq := k.flip_outcome
  equivalent_iff _ _ := k.outcome_eq_equivalent_iff
  trans as bs cs first second := by
    rw [outcome_eq_greater_iff] at *
    obtain ⟨covers, weighs⟩ := first
    obtain ⟨covers', weighs'⟩ := second
    refine ⟨fun v => (covers' v).trans (covers v), ?_⟩
    obtain heavier | ⟨level, greater⟩ := weighs
    · left
      omega
    obtain heavier | ⟨level', greater'⟩ := weighs'
    · left
      omega
    · exact .inr ⟨level'.trans level, k.lexicographic_greater_trans greater greater'⟩

/-! ## Terms -/

/-- Whatever the configuration, the ordering of well-formed terms answers unless a weight leaves
its range. It then answers alike from both sides, calls equal terms equivalent and no others, and
what is greater than a greater term is greater itself. -/
theorem compare_strict {k : KnuthBendix} {σ : Signature} {a b c : Term} (wfA : a.WellFormed σ)
    (wfB : b.WellFormed σ) (ab : k.compare a b ≠ .error .overflow)
    (ba : k.compare b a ≠ .error .overflow) (bc : k.compare b c ≠ .error .overflow)
    (ac : k.compare a c ≠ .error .overflow) :
    ∃ first second outer : TermOrdering, k.compare a b = .ok first ∧ k.compare b a = .ok first.flip ∧
      k.compare b c = .ok second ∧ k.compare a c = .ok outer ∧
      (first = .equivalent ↔ a = b) ∧
      (first = .greater → second = .greater → outer = .greater) := by
  have strict := k.outcome_strict
  refine ⟨_, _, _, (k.yields_compare a b).eq_ok ab, ?_, (k.yields_compare b c).eq_ok bc,
    (k.yields_compare a c).eq_ok ac, ?_, strict.trans _ _ _⟩
  · rw [strict.flip_eq]
    exact (k.yields_compare b a).eq_ok ba
  · rw [strict.equivalent_iff]
    exact wfA.spelling_eq_iff wfB

/-- A quantified term over a function term of its weight, and both over a variable. -/
theorem compare_strict_quantified :
    let σ := (Signature.initial.internFunction "f" 1).2
    let f := (Signature.initial.internFunction "f" 1).1
    let x := Term.var ⟨0, 0⟩
    let a := Term.quantified .universal ⟨0, 1⟩ (.app .function f [x])
    let b := Term.app .function f [.app .function f [.app .function f [x]]]
    (a.WellFormed σ ∧ b.WellFormed σ) ∧
      standard.compare a b = .ok .greater ∧ standard.compare b a = .ok .smaller ∧
      standard.compare b x = .ok .greater ∧ standard.compare a x = .ok .greater := by
  intro σ f x a b
  have apply_f {t : Term} (wf : t.WellFormed σ) : (Term.app .function f [t]).WellFormed σ :=
    .app ⟨rfl, rfl⟩ rfl (List.forall_mem_singleton.2 wf)
  have fx : (Term.app .function f [x]).WellFormed σ := apply_f (.var _)
  have wfA : a.WellFormed σ := .app ⟨rfl, rfl⟩ rfl (List.forall_mem_singleton.2 (.abstraction fx))
  have wfB : b.WellFormed σ := apply_f (apply_f fx)
  have ab : standard.compare a b = .ok .greater := by decide +kernel
  have ba : standard.compare b a = .ok .smaller := by decide +kernel
  have bx : standard.compare b x = .ok .greater := by decide +kernel
  have ax : standard.compare a x ≠ .error .overflow := by decide +kernel
  obtain ⟨first, second, outer, ab', -, bx', ax', -, trans⟩ :=
    compare_strict wfA wfB (ab ▸ nofun) (ba ▸ nofun) (bx ▸ nofun) ax
  cases ab.symm.trans ab'
  cases bx.symm.trans bx'
  rw [trans rfl rfl] at ax'
  exact ⟨⟨wfA, wfB⟩, ab, ba, bx, ax'⟩

end KnuthBendix

end SaturationCore
