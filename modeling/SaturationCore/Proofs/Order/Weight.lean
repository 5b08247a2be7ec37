/-
# What weighing computes

Weighing counts heads from left to right in signed 64-bit numbers. Unless a number
leaves that range, the constant is the sum of the weights of the heads, and the
coefficient of a variable is the number of its occurrences. Comparing two weights then
answers which of two unbounded sums is greater and whose variables outnumber those of
the other.

`Yields` says what a computation with weights comes to. It passes through sequences of
such computations, so what they come to is read off the steps.
-/
import Mathlib.Data.List.Basic
import SaturationCore.Order.Literal

namespace SaturationCore

/-- The computation gives the value unless a number leaves its range. -/
def Yields {α : Type} (x : Checked α) (value : α) : Prop :=
  x = .error .overflow ∨ x = .ok value

namespace Yields

variable {α β : Type} {x : Checked α} {f : α → Checked β} {value : α} {result : β}

theorem ok (value : α) : Yields (.ok value) value :=
  .inr rfl

theorem bind (first : Yields x value) (next : Yields (f value) result) :
    Yields (x >>= f) result := by
  obtain rfl | rfl := first
  · exact .inl rfl
  · exact next

theorem require (condition : Bool) : Yields (require condition .overflow) () := by
  cases condition with
  | true => exact .inr rfl
  | false => exact .inl rfl

theorem foldlM {step : α → β → Checked α} {step' : α → β → α}
    (each : ∀ a b, Yields (step a b) (step' a b)) (bs : List β) (a : α) :
    Yields (bs.foldlM step a) (bs.foldl step' a) := by
  induction bs generalizing a with
  | nil => exact .ok a
  | cons b bs ih =>
      rw [List.foldlM_cons, List.foldl_cons]
      exact (each a b).bind (ih (step' a b))

/-- A computation that stays in range has the value. -/
theorem eq_ok (yields : Yields x value) (fits : x ≠ .error .overflow) : x = .ok value :=
  yields.resolve_left fits

theorem eq_of_eq_ok {other : α} (yields : Yields x value) (done : x = .ok other) :
    other = value := by
  obtain h | h := yields
  · rw [h] at done
    cases done
  · rw [h] at done
    cases done
    rfl

end Yields

namespace Weight

theorem yields_add (a b : Int) : Yields (add a b) (a + b) :=
  (Yields.require _).bind (.ok _)

theorem yields_sub (a b : Int) : Yields (sub a b) (a - b) :=
  (Yields.require _).bind (.ok _)

end Weight

namespace WeightPolynomial

variable (p q : WeightPolynomial)

theorem getD_lookup_increment (u v : Variable) (entries : List (Variable × Nat)) :
    ((increment u entries).lookup v).getD 0 =
      (entries.lookup v).getD 0 + if v = u then 1 else 0 := by
  induction entries with
  | nil =>
      rw [increment, List.lookup_cons]
      by_cases here : v = u
      · simp [here]
      · simp [here, beq_eq_false_iff_ne.2 here]
  | cons entry rest ih =>
      obtain ⟨w, n⟩ := entry
      rw [increment]
      by_cases first : w = u
      · rw [if_pos first, List.lookup_cons, List.lookup_cons, first]
        by_cases here : v = u
        · simp [here]
        · simp [here, beq_eq_false_iff_ne.2 here]
      · rw [if_neg first, List.lookup_cons, List.lookup_cons]
        by_cases here : v = w
        · simp [here, first]
        · simp [beq_eq_false_iff_ne.2 here, ih]

theorem coefficient_addVariable (u v : Variable) :
    (p.addVariable u).coefficient v = p.coefficient v + if v = u then 1 else 0 :=
  getD_lookup_increment u v p.coefficients

theorem mem_support_of_coefficient_ne_zero {v : Variable} (h : p.coefficient v ≠ 0) :
    v ∈ p.support := by
  by_contra absent
  apply h
  have none : p.coefficients.lookup v = none := by
    rw [List.lookup_eq_none_iff]
    intro entry mem
    rw [bne_iff_ne]
    rintro rfl
    exact absent (List.mem_map_of_mem mem)
  rw [coefficient, none]
  rfl

/-- A coefficient that is greater on the left belongs to a variable of the left. -/
theorem any_iff_exists_coefficient_lt {vs : List Variable} (within : p.support ⊆ vs) :
    (vs.any fun v => decide (q.coefficient v < p.coefficient v)) = true ↔
      ∃ v, q.coefficient v < p.coefficient v := by
  simp only [List.any_eq_true, decide_eq_true_eq]
  constructor
  · rintro ⟨v, -, more⟩
    exact ⟨v, more⟩
  · rintro ⟨v, more⟩
    have positive : p.coefficient v ≠ 0 := Nat.ne_of_gt (Nat.zero_lt_of_lt more)
    exact ⟨v, within (p.mem_support_of_coefficient_ne_zero positive), more⟩

end WeightPolynomial

namespace KnuthBendix

variable (k : KnuthBendix) (as bs hs : List Head)

/-- The sum of the weights of the heads. -/
def total : List Head → Int
  | [] => 0
  | h :: hs => k.headWeight h + total hs

theorem total_append : k.total (as ++ bs) = k.total as + k.total bs := by
  induction as with
  | nil => exact (Int.zero_add _).symm
  | cons h as ih => rw [List.cons_append, total, total, ih, Int.add_assoc]

/-- Whether some variable occurs more often on the left. -/
def someMore (as bs : List Head) : Bool :=
  as.any fun h => h.isVariable && decide (bs.count h < as.count h)

/-- What comparing comes to when numbers have no bounds. -/
def outcome (as bs : List Head) : TermOrdering :=
  k.settle (WeightPolynomial.classify (k.total as - k.total bs) (someMore as bs) (someMore bs as))
    as bs

/-- Count one head in when numbers have no bounds. -/
def countHead (p : WeightPolynomial) (h : Head) : WeightPolynomial where
  constant := p.constant + k.headWeight h
  coefficients := h.asVariable.elim p.coefficients (WeightPolynomial.increment · p.coefficients)

theorem yields_weighHead (p : WeightPolynomial) (h : Head) :
    Yields (k.weighHead p h) (k.countHead p h) := by
  cases h with
  | var v => exact (Weight.yields_add _ _).bind (.ok _)
  | symbol s => exact (Weight.yields_add _ _).bind (.ok _)
  | binder v => exact (Weight.yields_add _ _).bind (.ok _)

theorem yields_weigh : Yields (k.weigh hs) (hs.foldl k.countHead .zero) :=
  Yields.foldlM k.yields_weighHead hs .zero

theorem constant_foldl (p : WeightPolynomial) :
    (hs.foldl k.countHead p).constant = p.constant + k.total hs := by
  induction hs generalizing p with
  | nil => exact (Int.add_zero _).symm
  | cons h hs ih =>
      rw [List.foldl_cons, ih, total, ← Int.add_assoc]
      rfl

theorem coefficient_countHead (p : WeightPolynomial) (h : Head) (v : Variable) :
    (k.countHead p h).coefficient v = p.coefficient v + [h].count (.var v) := by
  cases h with
  | var u =>
      rw [List.count_singleton]
      refine (p.coefficient_addVariable u v).trans (congrArg (p.coefficient v + ·) ?_)
      simp only [beq_iff_eq, Head.var.injEq, eq_comm (a := v)]
  | symbol s => simp [countHead, Head.asVariable, WeightPolynomial.coefficient]
  | binder u => simp [countHead, Head.asVariable, WeightPolynomial.coefficient]

theorem coefficient_foldl (p : WeightPolynomial) (v : Variable) :
    (hs.foldl k.countHead p).coefficient v = p.coefficient v + hs.count (.var v) := by
  induction hs generalizing p with
  | nil => rfl
  | cons h hs ih =>
      rw [List.foldl_cons, ih, coefficient_countHead, ← List.singleton_append (l := hs),
        List.count_append, Nat.add_assoc]

theorem someMore_iff : someMore as bs = true ↔ ∃ v, bs.count (.var v) < as.count (.var v) := by
  simp only [someMore, List.any_eq_true, Bool.and_eq_true, decide_eq_true_eq]
  constructor
  · rintro ⟨h, -, isVar, more⟩
    obtain ⟨v, rfl⟩ := h.exists_var_of_isVariable isVar
    exact ⟨v, more⟩
  · rintro ⟨v, more⟩
    exact ⟨.var v, List.count_pos_iff.1 (Nat.zero_lt_of_lt more), rfl, more⟩

/-- Two counted weights compare by their sums and by whose variables occur more often. -/
theorem yields_compare_counted :
    Yields ((as.foldl k.countHead .zero).compare (bs.foldl k.countHead .zero))
      (WeightPolynomial.classify (k.total as - k.total bs) (someMore as bs) (someMore bs as)) := by
  have constant (hs : List Head) : (hs.foldl k.countHead .zero).constant = k.total hs := by
    rw [constant_foldl]
    exact Int.zero_add _
  have coefficient (hs : List Head) (v : Variable) :
      (hs.foldl k.countHead .zero).coefficient v = hs.count (.var v) := by
    rw [coefficient_foldl]
    exact Nat.zero_add _
  have heavy (as bs : List Head) (vs : List Variable)
      (within : (as.foldl k.countHead .zero).support ⊆ vs) : someMore as bs =
      (vs.any fun v => decide ((bs.foldl k.countHead .zero).coefficient v <
        (as.foldl k.countHead .zero).coefficient v)) := by
    rw [Bool.eq_iff_iff, WeightPolynomial.any_iff_exists_coefficient_lt _ _ within, someMore_iff]
    simp only [coefficient]
  rw [WeightPolynomial.compare]
  refine (Weight.yields_sub _ _).bind ?_
  rw [constant, constant, heavy as bs _ (List.subset_append_left _ _),
    heavy bs as _ (List.subset_append_right _ _)]
  exact .inr rfl

/-- Comparing two sequences of heads gives the outcome that unbounded numbers have. -/
theorem yields_compareSpellings : Yields (k.compareSpellings as bs) (k.outcome as bs) :=
  (k.yields_weigh as).bind
    ((k.yields_weigh bs).bind ((k.yields_compare_counted as bs).bind (.ok _)))

theorem yields_compare (a b : Term) : Yields (k.compare a b) (k.outcome a.spelling b.spelling) :=
  k.yields_compareSpellings a.spelling b.spelling

end KnuthBendix

end SaturationCore
