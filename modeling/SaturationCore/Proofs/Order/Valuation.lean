/-
# What comparing two weights tells

Every variable of a term may weigh any amount beyond the least, so a weight polynomial stands for a
weight under each valuation of the variables. It is made by counting weights and occurrences of
variables, and under a valuation it comes to the sum of what was counted.

Comparing two polynomials tells which signs their difference takes under the valuations. Under the
valuation that is zero everywhere the difference is that of the constants. Where no coefficient is
greater on one side, no valuation moves the difference from there towards that side. Where one is,
a valuation of its variable alone moves the difference past any bound.
-/
import Mathlib.Algebra.BigOperators.Group.Finset.Piecewise
import Mathlib.Algebra.Order.BigOperators.Group.Finset
import SaturationCore.Proofs.Order.KnuthBendix

namespace SaturationCore

/-- How much the instance of each variable weighs beyond the least. -/
abbrev Valuation := Variable → Nat

/-- What is counted into a weight. -/
inductive Contribution where
  | weight (w : Int)
  | occurrence (v : Variable)

namespace Contribution

/-- What it adds under a valuation. -/
def value (ν : Valuation) : Contribution → Int
  | weight w => w
  | occurrence v => ν v

/-- What several contributions add up to under a valuation. -/
def total (cs : List Contribution) (ν : Valuation) : Int :=
  (cs.map (value ν)).sum

end Contribution

namespace WeightPolynomial

variable {p q : WeightPolynomial} {ν : Valuation} {v : Variable}

/-! ## Counting -/

/-- Count one contribution in. -/
def count (p : WeightPolynomial) : Contribution → Checked WeightPolynomial
  | .weight w => p.addWeight w
  | .occurrence v => return p.addVariable v

/-- The polynomial that some contributions make. -/
def ofContributions (cs : List Contribution) : Checked WeightPolynomial :=
  cs.foldlM count .zero

/-- The weight under a valuation. -/
def value (p : WeightPolynomial) (ν : Valuation) : Int :=
  p.constant + ∑ v ∈ p.support.toFinset, (p.coefficient v : Int) * ν v

/-- Variables that do not occur add nothing. -/
theorem value_eq_sum {vs : Finset Variable} (within : p.support.toFinset ⊆ vs) (ν : Valuation) :
    p.value ν = p.constant + ∑ v ∈ vs, (p.coefficient v : Int) * ν v := by
  have absent (v : Variable) (outside : v ∉ p.support.toFinset) : p.coefficient v = 0 := by
    by_contra occurs
    exact outside (List.mem_toFinset.2 (p.mem_support_of_coefficient_ne_zero occurs))
  rw [value, Finset.sum_subset within]
  intro v _ outside
  rw [absent v outside, Int.ofNat_zero, Int.zero_mul]

theorem support_increment_subset (u : Variable) (entries : List (Variable × Nat)) :
    (increment u entries).map (·.1) ⊆ u :: entries.map (·.1) := by
  induction entries with
  | nil => exact List.Subset.refl _
  | cons entry rest ih =>
      rw [increment]
      split
      · exact List.subset_cons_self _ _
      · intro v hv
        rw [List.map_cons, List.mem_cons] at hv
        rw [List.map_cons, List.mem_cons, List.mem_cons]
        have later := @ih v
        rw [List.mem_cons] at later
        tauto

theorem value_addVariable (p : WeightPolynomial) (u : Variable) (ν : Valuation) :
    (p.addVariable u).value ν = p.value ν + ν u := by
  have before : p.support.toFinset ⊆ (u :: p.support).toFinset := by
    rw [List.toFinset_cons]
    exact Finset.subset_insert _ _
  have after : (p.addVariable u).support.toFinset ⊆ (u :: p.support).toFinset := by
    intro v hv
    rw [List.mem_toFinset] at hv ⊢
    exact support_increment_subset u p.coefficients hv
  have here : u ∈ (u :: p.support).toFinset := List.mem_toFinset.2 List.mem_cons_self
  have term (v : Variable) : ((p.addVariable u).coefficient v : Int) * ν v =
      (p.coefficient v : Int) * ν v + if v = u then (ν v : Int) else 0 := by
    rw [coefficient_addVariable]
    split
    · rw [Int.natCast_add, Int.add_mul, Int.natCast_one, Int.one_mul]
    · rw [Nat.add_zero, Int.add_zero]
  rw [value_eq_sum after, value_eq_sum before, Finset.sum_congr rfl fun v _ => term v,
    Finset.sum_add_distrib, Finset.sum_ite_eq', if_pos here, ← Int.add_assoc]
  rfl

theorem value_count {c : Contribution} (counted : p.count c = .ok q) :
    q.value ν = p.value ν + c.value ν := by
  cases c with
  | weight w =>
      obtain ⟨sum, added, made⟩ := bind_eq_ok_iff.1 counted
      cases made
      have summed : sum = p.constant + w := (Weight.yields_add _ _).eq_of_eq_ok added
      rw [value, summed, Int.add_right_comm]
      rfl
  | occurrence v =>
      cases counted
      exact p.value_addVariable v ν

/-- Counting adds the values of what is counted. -/
theorem value_foldlM {cs : List Contribution} (counted : cs.foldlM count p = .ok q) :
    q.value ν = p.value ν + Contribution.total cs ν := by
  induction cs generalizing p with
  | nil =>
      cases counted
      exact (Int.add_zero _).symm
  | cons c cs ih =>
      rw [List.foldlM_cons] at counted
      obtain ⟨r, first, rest⟩ := bind_eq_ok_iff.1 counted
      rw [ih rest, value_count first, Int.add_assoc]
      rfl

theorem value_ofContributions {cs : List Contribution} (made : ofContributions cs = .ok p) :
    p.value = Contribution.total cs := by
  funext ν
  rw [value_foldlM made]
  exact Int.zero_add _

/-! ## The difference of two weights -/

theorem value_zero (p : WeightPolynomial) : p.value (fun _ => 0) = p.constant := by
  simp [value]

/-- If no coefficient is greater on the left, no valuation moves the difference to the left. -/
theorem value_sub_le (covered : ∀ v, p.coefficient v ≤ q.coefficient v) (ν : Valuation) :
    p.value ν - q.value ν ≤ p.constant - q.constant := by
  have sums : ∑ v ∈ p.support.toFinset ∪ q.support.toFinset, (p.coefficient v : Int) * ν v ≤
      ∑ v ∈ p.support.toFinset ∪ q.support.toFinset, (q.coefficient v : Int) * ν v := by
    apply Finset.sum_le_sum
    intro v _
    exact Int.mul_le_mul_of_nonneg_right (Int.ofNat_le.2 (covered v)) (Int.natCast_nonneg _)
  have onLeft : p.support.toFinset ⊆ p.support.toFinset ∪ q.support.toFinset :=
    Finset.subset_union_left
  have onRight : q.support.toFinset ⊆ p.support.toFinset ∪ q.support.toFinset :=
    Finset.subset_union_right
  rw [value_eq_sum onLeft, value_eq_sum onRight]
  omega

/-- Under a valuation of one variable alone, only its occurrences add to the constant. -/
theorem value_single (p : WeightPolynomial) (v : Variable) (n : Nat) :
    p.value (Pi.single v n) = p.constant + p.coefficient v * n := by
  have here : v ∈ insert v p.support.toFinset := Finset.mem_insert_self _ _
  rw [value_eq_sum (Finset.subset_insert v _), Finset.sum_eq_single_of_mem v here,
    Pi.single_eq_same]
  intro u _ other
  rw [Pi.single_eq_of_ne other, Int.ofNat_zero, Int.mul_zero]

/-- If a coefficient is greater on the left, the difference passes any bound to the left. -/
theorem exists_lt_value_sub (more : q.coefficient v < p.coefficient v) (bound : Int) :
    ∃ ν, bound < p.value ν - q.value ν := by
  let n := (bound - (p.constant - q.constant)).toNat + 1
  have gained : q.coefficient v * n + n ≤ p.coefficient v * n := by
    rw [← Nat.succ_mul]
    exact Nat.mul_le_mul_right n more
  use Pi.single v n
  rw [value_single, value_single, ← Int.natCast_mul, ← Int.natCast_mul]
  omega

end WeightPolynomial

/-! ## Outcomes -/

namespace WeightComparison

variable {x y : Valuation → Int} {c o : WeightComparison}

/-- What an outcome says of two weights under all valuations. -/
def Tells (x y : Valuation → Int) : WeightComparison → Prop
  | alwaysSmaller => ∀ ν, x ν < y ν
  | smallerOrEquivalent => (∀ ν, x ν ≤ y ν) ∧ (∃ ν, x ν = y ν) ∧ ∃ ν, x ν < y ν
  | alwaysEquivalent => ∀ ν, x ν = y ν
  | greaterOrEquivalent => (∀ ν, y ν ≤ x ν) ∧ (∃ ν, y ν = x ν) ∧ ∃ ν, y ν < x ν
  | alwaysGreater => ∀ ν, y ν < x ν
  | volatile => (∃ ν, x ν < y ν) ∧ ∃ ν, y ν < x ν

theorem tells_flip : c.flip.Tells x y ↔ c.Tells y x := by
  cases c with
  | alwaysEquivalent => exact forall_congr' fun ν => eq_comm
  | volatile => exact and_comm
  | _ => exact Iff.rfl

/-- No two outcomes say the same of two weights. -/
theorem Tells.unique (first : c.Tells x y) (second : o.Tells x y) : c = o := by
  -- There is a valuation at all, so two outcomes that speak of all of them can be confronted.
  have somewhere := lt_trichotomy (x fun _ => 0) (y fun _ => 0)
  cases c <;> cases o <;> grind [Tells]

end WeightComparison

namespace WeightPolynomial

variable {p q : WeightPolynomial} {left right : Bool}

/-- Where coefficients are greater on the left only, the difference is least under the valuation
that is zero everywhere. -/
theorem tells_classify_left (more : ∃ v, q.coefficient v < p.coefficient v)
    (covers : ∀ v, q.coefficient v ≤ p.coefficient v) :
    (classify (p.constant - q.constant) true false).Tells p.value q.value := by
  obtain ⟨v, more⟩ := more
  obtain ⟨high, above⟩ := exists_lt_value_sub more 0
  have lowest := value_sub_le covers
  have least : p.value (fun _ => 0) - q.value (fun _ => 0) = p.constant - q.constant := by
    rw [value_zero, value_zero]
  rw [classify]
  split
  · intro ν
    have := lowest ν
    omega
  · split
    · have bounded (ν : Valuation) : q.value ν ≤ p.value ν := by
        have := lowest ν
        omega
      exact ⟨bounded, ⟨fun _ => 0, by omega⟩, high, by omega⟩
    · exact ⟨⟨fun _ => 0, by omega⟩, high, by omega⟩

/-- Classifying the difference of the constants tells the sign of the difference. -/
theorem tells_classify (onLeft : left = true ↔ ∃ v, q.coefficient v < p.coefficient v)
    (onRight : right = true ↔ ∃ v, p.coefficient v < q.coefficient v) :
    (classify (p.constant - q.constant) left right).Tells p.value q.value := by
  have covers (p q : WeightPolynomial) (none : ¬∃ v, q.coefficient v < p.coefficient v)
      (v : Variable) : p.coefficient v ≤ q.coefficient v :=
    Nat.not_lt.1 (not_exists.1 none v)
  cases left with
  | true =>
      cases right with
      | true =>
          obtain ⟨u, more⟩ := onLeft.1 rfl
          obtain ⟨v, more'⟩ := onRight.1 rfl
          obtain ⟨high, above⟩ := exists_lt_value_sub more 0
          obtain ⟨low, below⟩ := exists_lt_value_sub more' 0
          exact ⟨⟨low, Int.lt_of_sub_pos below⟩, high, Int.lt_of_sub_pos above⟩
      | false =>
          exact tells_classify_left (onLeft.1 rfl) (covers q p (mt onRight.2 Bool.false_ne_true))
  | false =>
      have below := covers p q (mt onLeft.2 Bool.false_ne_true)
      cases right with
      | true =>
          have swapped := tells_classify_left (onRight.1 rfl) below
          rw [← WeightComparison.tells_flip, KnuthBendix.flip_classify, Int.neg_sub] at swapped
          exact swapped
      | false =>
          have above := covers q p (mt onRight.2 Bool.false_ne_true)
          have fixed (ν : Valuation) : p.value ν - q.value ν = p.constant - q.constant := by
            have upper := value_sub_le below ν
            have lower := value_sub_le above ν
            omega
          rcases lt_trichotomy (p.constant - q.constant) 0 with negative | level | positive
          · rw [classify, if_neg negative.not_gt, if_pos negative]
            intro ν
            exact Int.lt_of_sub_neg ((fixed ν).trans_lt negative)
          · rw [level]
            intro ν
            exact Int.eq_of_sub_eq_zero ((fixed ν).trans level)
          · rw [classify, if_pos positive]
            intro ν
            exact Int.lt_of_sub_pos (positive.trans_eq (fixed ν).symm)

theorem yields_compare (onLeft : left = true ↔ ∃ v, q.coefficient v < p.coefficient v)
    (onRight : right = true ↔ ∃ v, p.coefficient v < q.coefficient v) :
    Yields (p.compare q) (classify (p.constant - q.constant) left right) := by
  have heavier := any_iff_exists_coefficient_lt p q (List.subset_append_left p.support q.support)
  have lighter := any_iff_exists_coefficient_lt q p (List.subset_append_right p.support q.support)
  rw [compare, Bool.eq_iff_iff.2 (onLeft.trans heavier.symm),
    Bool.eq_iff_iff.2 (onRight.trans lighter.symm)]
  exact (Weight.yields_sub _ _).bind (.ok _)

/-- Unless a number leaves its range, comparing two weights that were made by counting answers with
the one outcome that tells the sign of the difference of what was counted, under all valuations of
the variables. Compared the other way round, they answer with the flipped outcome. -/
theorem compare_tells_sign {as bs : List Contribution} (madeP : ofContributions as = .ok p)
    (madeQ : ofContributions bs = .ok q) (fits : p.compare q ≠ .error .overflow) :
    ∃ c, p.compare q = .ok c ∧ (q.compare p ≠ .error .overflow → q.compare p = .ok c.flip) ∧
      ∀ o : WeightComparison,
        c = o ↔ o.Tells (Contribution.total as) (Contribution.total bs) := by
  classical
  have onLeft := decide_eq_true_iff (p := ∃ v, q.coefficient v < p.coefficient v)
  have onRight := decide_eq_true_iff (p := ∃ v, p.coefficient v < q.coefficient v)
  have tells := tells_classify onLeft onRight
  rw [value_ofContributions madeP, value_ofContributions madeQ] at tells
  refine ⟨_, (yields_compare onLeft onRight).eq_ok fits, fun fits' => ?_,
    fun o => ⟨?_, tells.unique⟩⟩
  · rw [KnuthBendix.flip_classify, Int.neg_sub]
    exact (yields_compare onRight onLeft).eq_ok fits'
  · rintro rfl
    exact tells

/-- The left weight is less by two but has one variable more, so the sign of the difference
depends on the instance of that variable. -/
theorem compare_tells_sign_volatile :
    let x : Variable := ⟨0, 0⟩
    let y : Variable := ⟨0, 1⟩
    let as : List Contribution := [.occurrence y, .weight 1, .occurrence x, .occurrence y]
    let bs : List Contribution := [.weight 3, .occurrence x, .occurrence y]
    ∃ p q, ofContributions as = .ok p ∧ ofContributions bs = .ok q ∧
      p.compare q = .ok .volatile ∧ q.compare p = .ok .volatile ∧
      (∃ ν, Contribution.total as ν < Contribution.total bs ν) ∧
      ∃ ν, Contribution.total bs ν < Contribution.total as ν := by
  intro x y as bs
  let p : WeightPolynomial := ⟨1, [(y, 2), (x, 1)]⟩
  let q : WeightPolynomial := ⟨3, [(x, 1), (y, 1)]⟩
  have madeP : ofContributions as = .ok p := rfl
  have madeQ : ofContributions bs = .ok q := rfl
  have forth : p.compare q = .ok .volatile := by decide +kernel
  have back : q.compare p = .ok .volatile := by decide +kernel
  obtain ⟨c, answer, answer', tells⟩ := compare_tells_sign madeP madeQ (forth ▸ nofun)
  cases forth.symm.trans answer
  exact ⟨p, q, madeP, madeQ, answer, answer' (back ▸ nofun), (tells .volatile).1 rfl⟩

end WeightPolynomial

end SaturationCore
