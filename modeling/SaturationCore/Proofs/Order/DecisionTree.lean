/-
# The decision trees compute the extension to multisets

A tree asks at most four questions, and four answers say all there is to know about two
sides on the left and two on the right. They cannot be any four answers. A side that is
equal to both sides opposite makes those two answer alike, and there is no way round
from a side over both sides opposite and back to it that only descends, unless all four
are equal.

The extension to multisets is a simple function of the four answers, and so is the
outcome of a tree. On answers that fit together the two functions agree. Transitivity
plays no part in that, so a comparison may be any acyclic one.
-/
import Mathlib.Data.Fintype.Defs
import SaturationCore.Order.Literal
import SaturationCore.Proofs.Order.Comparison
import SaturationCore.Proofs.Order.Weight

namespace SaturationCore

open TermOrdering

namespace DecisionTree

/-- A tree whose questions are all answered comes to the outcome that they lead to. -/
theorem run_eq_ok {cmp : Side → Side → Checked TermOrdering} {f : Side → Side → TermOrdering}
    (answered : ∀ i j, cmp i j = .ok (f i j)) (tree : DecisionTree) :
    tree.run cmp = .ok (tree.runListing f).1 := by
  induction tree with
  | answer outcome => rfl
  | ask left right next ih =>
      rw [run, answered]
      exact ih (f left right)

theorem run_yields {cmp : Side → Side → Checked TermOrdering} {f : Side → Side → TermOrdering}
    (answered : ∀ i j, Yields (cmp i j) (f i j)) (tree : DecisionTree) :
    Yields (tree.run cmp) (tree.runListing f).1 := by
  induction tree with
  | answer outcome => exact .ok outcome
  | ask left right next ih => exact (answered left right).bind (ih (f left right))

end DecisionTree

instance : Fintype TermOrdering where
  elems := {smaller, equivalent, greater, incomparable}
  complete o := by cases o <;> decide

/-- The answers about two sides `s₁, s₂` on the left and two sides `t₁, t₂` on the right. -/
structure Answers where
  s₁t₁ : TermOrdering
  s₁t₂ : TermOrdering
  s₂t₁ : TermOrdering
  s₂t₂ : TermOrdering

namespace Answers

/-- The answer to a question. -/
def reply (f : Answers) : Side → Side → TermOrdering
  | .first, .first => f.s₁t₁
  | .first, .second => f.s₁t₂
  | .second, .first => f.s₂t₁
  | .second, .second => f.s₂t₂

/-- The same questions asked the other way round. -/
def flip (f : Answers) : Answers :=
  ⟨f.s₁t₁.flip, f.s₁t₂.flip, f.s₂t₁.flip, f.s₂t₂.flip⟩

/-- The way from `s₁` over `t₁`, `s₂` and `t₂` back does not descend, unless all are equal. -/
def Returns (f : Answers) : Prop :=
  (f.s₁t₁ = greater ∨ f.s₁t₁ = equivalent) ∧ (f.s₂t₁ = smaller ∨ f.s₂t₁ = equivalent) ∧
      (f.s₂t₂ = greater ∨ f.s₂t₂ = equivalent) ∧ (f.s₁t₂ = smaller ∨ f.s₁t₂ = equivalent) →
    f.s₁t₁ = equivalent ∧ f.s₁t₂ = equivalent ∧ f.s₂t₁ = equivalent ∧ f.s₂t₂ = equivalent

instance (f : Answers) : Decidable f.Returns :=
  inferInstanceAs (Decidable (_ → _))

/-- The answers fit together: equal sides answer alike, and neither way round descends. -/
def Coherent (f : Answers) : Prop :=
  (f.s₁t₁ = equivalent → f.s₂t₁ = equivalent → f.s₁t₂ = f.s₂t₂) ∧
  (f.s₁t₂ = equivalent → f.s₂t₂ = equivalent → f.s₁t₁ = f.s₂t₁) ∧
  (f.s₁t₁ = equivalent → f.s₁t₂ = equivalent → f.s₂t₁ = f.s₂t₂) ∧
  (f.s₂t₁ = equivalent → f.s₂t₂ = equivalent → f.s₁t₁ = f.s₁t₂) ∧
  f.Returns ∧ f.flip.Returns

instance (f : Answers) : Decidable f.Coherent :=
  inferInstanceAs (Decidable (_ ∧ _ ∧ _ ∧ _ ∧ _ ∧ _))

/-- How `s₁, s₂` and `t₁, t₂` compare. Equal sides cancel, and then the other two decide. -/
def equations (f : Answers) : TermOrdering :=
  if f.s₁t₁ = equivalent then f.s₂t₂
  else if f.s₁t₂ = equivalent then f.s₂t₁
  else if f.s₂t₁ = equivalent then f.s₁t₂
  else if f.s₂t₂ = equivalent then f.s₁t₁
  else if (f.s₁t₁ = greater ∨ f.s₂t₁ = greater) ∧ (f.s₁t₂ = greater ∨ f.s₂t₂ = greater) then greater
  else if (f.s₁t₁ = smaller ∨ f.s₁t₂ = smaller) ∧ (f.s₂t₁ = smaller ∨ f.s₂t₂ = smaller) then smaller
  else incomparable

/-- Some left side is equal to `t₁`. -/
def cancels₁ (f : Answers) : Prop :=
  f.s₁t₁ = equivalent ∨ f.s₂t₁ = equivalent

/-- Some left side is equal to `t₂`. -/
def cancels₂ (f : Answers) : Prop :=
  f.s₁t₂ = equivalent ∨ f.s₂t₂ = equivalent

instance (f : Answers) : Decidable f.cancels₁ :=
  inferInstanceAs (Decidable (_ ∨ _))

instance (f : Answers) : Decidable f.cancels₂ :=
  inferInstanceAs (Decidable (_ ∨ _))

/-- How `s₁, s₁, s₂, s₂` and `t₁, t₂` compare. Both left sides stay unless both right ones go. -/
def deniedWithAsserted (f : Answers) : TermOrdering :=
  if (f.cancels₁ ∨ f.s₁t₁ = greater ∨ f.s₂t₁ = greater) ∧
      (f.cancels₂ ∨ f.s₁t₂ = greater ∨ f.s₂t₂ = greater) then greater
  else if (¬ f.cancels₁ ∧ f.s₁t₁ = smaller ∨ ¬ f.cancels₂ ∧ f.s₁t₂ = smaller) ∧
      (¬ f.cancels₁ ∧ f.s₂t₁ = smaller ∨ ¬ f.cancels₂ ∧ f.s₂t₂ = smaller) then smaller
  else incomparable

/-- On answers that fit together the first tree comes to the outcome for asserted equations. -/
theorem runListing_equations : ∀ a c d e, (Answers.mk a c d e).Coherent →
    (DecisionTree.equations.runListing (Answers.mk a c d e).reply).1 =
      (Answers.mk a c d e).equations := by
  decide +kernel

/-- On answers that fit together the second tree comes to the outcome for a denied equation
and an asserted one. -/
theorem runListing_deniedWithAsserted : ∀ a c d e, (Answers.mk a c d e).Coherent →
    (DecisionTree.deniedWithAsserted.runListing (Answers.mk a c d e).reply).1 =
      (Answers.mk a c d e).deniedWithAsserted := by
  decide +kernel

theorem deniedWithAsserted_ne_equivalent (f : Answers) : f.deniedWithAsserted ≠ equivalent := by
  rw [deniedWithAsserted]
  split_ifs <;> exact TermOrdering.noConfusion

end Answers

namespace Comparison

variable {α : Type} {cmp : Comparison α}

/-- The answers that a comparison gives. -/
def answers (cmp : Comparison α) (s t : α × α) : Answers :=
  ⟨cmp s.1 t.1, cmp s.1 t.2, cmp s.2 t.1, cmp s.2 t.2⟩

theorem reply_answers (s t : α × α) (i j : Side) :
    (cmp.answers s t).reply i j = cmp (i.of s) (j.of t) := by
  cases i <;> cases j <;> rfl

/-- The first element is greater than the second or equal to it. -/
def Descends (cmp : Comparison α) (x y : α) : Prop :=
  cmp x y = greater ∨ cmp x y = equivalent

theorem Faithful.descends_iff (faithful : cmp.Faithful) {x y : α} :
    cmp.Descends x y ↔ cmp y x = smaller ∨ cmp y x = equivalent := by
  rw [Descends, faithful.smaller_iff, faithful.equivalent_iff, faithful.equivalent_iff, @eq_comm α]

theorem Faithful.chain_of_descends (faithful : cmp.Faithful) {x y : α} (step : cmp.Descends x y) :
    Relation.ReflTransGen (fun x y => cmp x y = greater) x y := by
  obtain lower | same := step
  · exact .single lower
  · rw [(faithful.equivalent_iff x y).1 same]

/-- A round that descends from element to element goes through equal elements only. -/
theorem Acyclic.equivalent_of_round (acyclic : cmp.Acyclic) {w x y z : α}
    (first : cmp.Descends w x) (second : cmp.Descends x y) (third : cmp.Descends y z)
    (last : cmp.Descends z w) : cmp w x = equivalent := by
  refine first.resolve_left fun lower => acyclic.no_cycle w ?_
  have back := ((acyclic.chain_of_descends second).trans (acyclic.chain_of_descends third)).trans
    (acyclic.chain_of_descends last)
  exact Relation.TransGen.head' lower back

theorem Acyclic.returns (acyclic : cmp.Acyclic) (s t : α × α) : (cmp.answers s t).Returns := by
  rintro ⟨first, second, third, last⟩
  have second := acyclic.descends_iff.2 second
  have last := acyclic.descends_iff.2 last
  have swap {x y : α} (same : cmp x y = equivalent) : cmp y x = equivalent := by
    rw [acyclic.equivalent_iff] at same ⊢
    exact same.symm
  exact ⟨acyclic.equivalent_of_round first second third last,
    swap (acyclic.equivalent_of_round last first second third),
    swap (acyclic.equivalent_of_round second third last first),
    acyclic.equivalent_of_round third last first second⟩

theorem Acyclic.returns_flip (acyclic : cmp.Acyclic) (s t : α × α) :
    (cmp.answers s t).flip.Returns := by
  simp only [Answers.Returns, Answers.flip, answers, acyclic.flip_eq]
  rintro ⟨first, second, third, last⟩
  obtain ⟨corner₁, corner₂, corner₃, corner₄⟩ := acyclic.returns t s ⟨first, last, third, second⟩
  exact ⟨corner₁, corner₃, corner₂, corner₄⟩

theorem Acyclic.coherent (acyclic : cmp.Acyclic) (s t : α × α) : (cmp.answers s t).Coherent := by
  refine ⟨?_, ?_, ?_, ?_, acyclic.returns s t, acyclic.returns_flip s t⟩ <;>
    simp only [answers, acyclic.equivalent_iff]
  · intro first second
    rw [first, second]
  · intro first second
    rw [first, second]
  · intro first second
    rw [← first, ← second]
  · intro first second
    rw [← first, ← second]

variable [DecidableEq α]

omit [DecidableEq α] in
theorem outdoes_pair_iff {x y z w : α} : cmp.Outdoes {x, y} {z, w} ↔
    (cmp x z = greater ∨ cmp y z = greater) ∧ (cmp x w = greater ∨ cmp y w = greater) := by
  simp [Outdoes]

section Rest

variable {stays : α → Prop} [DecidablePred stays] {x y z w : α}

omit [DecidableEq α] in
/-- What stays of a pair is outdone by another pair. -/
theorem outdoes_filter_iff : cmp.Outdoes {x, y} (Multiset.filter stays {z, w}) ↔
    (stays z → cmp x z = greater ∨ cmp y z = greater) ∧
      (stays w → cmp x w = greater ∨ cmp y w = greater) := by
  simp [Outdoes]

omit [DecidableEq α] in
/-- What stays of a pair outdoes another pair. -/
theorem filter_outdoes_iff : cmp.Outdoes (Multiset.filter stays {z, w}) {x, y} ↔
    (stays z ∧ cmp z x = greater ∨ stays w ∧ cmp w x = greater) ∧
      (stays z ∧ cmp z y = greater ∨ stays w ∧ cmp w y = greater) := by
  have above (b : α) : (∃ a ∈ Multiset.filter stays {z, w}, cmp a b = greater) ↔
      stays z ∧ cmp z b = greater ∨ stays w ∧ cmp w b = greater := by
    simp [or_and_right, exists_or, and_assoc]
  rw [← above, ← above, Outdoes]
  constructor
  · rintro ⟨-, each⟩
    exact ⟨each x (by simp), each y (by simp)⟩
  · rintro ⟨first, second⟩
    have greater := first
    obtain ⟨a, ha, -⟩ := greater
    refine ⟨fun none => Multiset.notMem_zero a (none ▸ ha), ?_⟩
    simp only [Multiset.insert_eq_cons, Multiset.mem_cons, Multiset.mem_singleton]
    rintro b (rfl | rfl)
    · exact first
    · exact second

end Rest

theorem Faithful.extension_singleton (faithful : cmp.Faithful) (a b : α) :
    cmp.extension {a} {b} = cmp a b := by
  by_cases same : a = b
  · rw [(faithful.equivalent_iff a b).2 same, extension_eq_equivalent_iff, same]
  · have apart : Disjoint {a} ({b} : Multiset α) := by simpa using Ne.symm same
    have singles {x y : α} : cmp.Outdoes {x} {y} ↔ cmp x y = greater := by simp [Outdoes]
    have other : cmp a b ≠ equivalent := mt (faithful.equivalent_iff a b).1 same
    have back : cmp b a = greater ↔ cmp a b = smaller := faithful.smaller_iff.symm
    rw [extension_of_disjoint apart (Multiset.singleton_ne_zero a)]
    simp only [singles, back]
    cases answer : cmp a b with
    | equivalent => exact absurd answer other
    | _ => rfl

/-- Asserted equations compare as their answers say. -/
theorem Faithful.extension_pair (faithful : cmp.Faithful) (s t : α × α) :
    cmp.extension {s.1, s.2} {t.1, t.2} = (cmp.answers s t).equations := by
  obtain ⟨s₁, s₂⟩ := s
  obtain ⟨t₁, t₂⟩ := t
  have cancel (x y z : α) : cmp.extension {x, y} {x, z} = cmp y z :=
    (extension_cons_cons x {y} {z}).trans (faithful.extension_singleton y z)
  simp only [answers, Answers.equations, faithful.equivalent_iff]
  by_cases h₁₁ : s₁ = t₁
  · rw [if_pos h₁₁, h₁₁, cancel]
  by_cases h₁₂ : s₁ = t₂
  · rw [if_neg h₁₁, if_pos h₁₂, h₁₂, Multiset.pair_comm t₁, cancel]
  by_cases h₂₁ : s₂ = t₁
  · rw [if_neg h₁₁, if_neg h₁₂, if_pos h₂₁, h₂₁, Multiset.pair_comm s₁, cancel]
  by_cases h₂₂ : s₂ = t₂
  · rw [if_neg h₁₁, if_neg h₁₂, if_neg h₂₁, if_pos h₂₂, h₂₂, Multiset.pair_comm s₁,
      Multiset.pair_comm t₁, cancel]
  have apart : Disjoint {s₁, s₂} ({t₁, t₂} : Multiset α) := by
    rw [Multiset.disjoint_left]
    intro x left right
    simp only [Multiset.insert_eq_cons, Multiset.mem_cons, Multiset.mem_singleton] at left right
    obtain rfl | rfl := left <;> obtain rfl | rfl := right <;> contradiction
  rw [if_neg h₁₁, if_neg h₁₂, if_neg h₂₁, if_neg h₂₂,
    extension_of_disjoint apart (Multiset.cons_ne_zero)]
  simp only [outdoes_pair_iff, faithful.smaller_iff]

/-- A denied equation and an asserted one compare as their answers say. -/
theorem Faithful.extension_doubled_pair (faithful : cmp.Faithful) (s t : α × α) :
    cmp.extension {s.1, s.1, s.2, s.2} {t.1, t.2} = (cmp.answers s t).deniedWithAsserted := by
  obtain ⟨s₁, s₂⟩ := s
  obtain ⟨t₁, t₂⟩ := t
  have twice : ({s₁, s₁, s₂, s₂} : Multiset α) = {s₁, s₂} + {s₁, s₂} := by
    simp [Multiset.insert_eq_cons]
  have stays (t : α) : t ∉ ({s₁, s₂} : Multiset α) ↔ ¬ (s₁ = t ∨ s₂ = t) := by
    simp [eq_comm]
  rw [twice, extension_doubled (by simp) (by simp)]
  simp only [outdoes_filter_iff, filter_outdoes_iff, stays, imp_iff_not_or, not_not,
    ← faithful.smaller_iff, Answers.deniedWithAsserted, Answers.cancels₁, Answers.cancels₂, answers,
    faithful.equivalent_iff]

/-- The first tree compares asserted equations as multisets of their sides. -/
theorem Acyclic.runListing_equations (acyclic : cmp.Acyclic) (s t : α × α) :
    (DecisionTree.equations.runListing fun i j => cmp (i.of s) (j.of t)).1 =
      cmp.extension {s.1, s.2} {t.1, t.2} := by
  have table : (fun i j => cmp (Side.of s i) (Side.of t j)) = (cmp.answers s t).reply := by
    funext i j
    exact (cmp.reply_answers s t i j).symm
  rw [table, acyclic.toFaithful.extension_pair]
  exact Answers.runListing_equations _ _ _ _ (acyclic.coherent s t)

/-- The second tree compares a denied equation with an asserted one as multisets of their
sides. -/
theorem Acyclic.runListing_deniedWithAsserted (acyclic : cmp.Acyclic) (s t : α × α) :
    (DecisionTree.deniedWithAsserted.runListing fun i j => cmp (i.of s) (j.of t)).1 =
      cmp.extension {s.1, s.1, s.2, s.2} {t.1, t.2} := by
  have table : (fun i j => cmp (Side.of s i) (Side.of t j)) = (cmp.answers s t).reply := by
    funext i j
    exact (cmp.reply_answers s t i j).symm
  rw [table, acyclic.toFaithful.extension_doubled_pair]
  exact Answers.runListing_deniedWithAsserted _ _ _ _ (acyclic.coherent s t)

end Comparison

namespace DecisionTree

variable {α : Type} [DecidableEq α] {cmp : Comparison α}

/-- Asked about an acyclic comparison, transitive or not, the first tree compares `s₁, s₂` with
`t₁, t₂` as multisets, and the second one compares `s₁, s₁, s₂, s₂` with `t₁, t₂` and never calls
them equivalent. -/
theorem run_eq_extension (acyclic : cmp.Acyclic) (s t : α × α) :
    (equations.run fun i j => .ok (cmp (i.of s) (j.of t))) =
        .ok (cmp.extension {s.1, s.2} {t.1, t.2}) ∧
      (deniedWithAsserted.run fun i j => .ok (cmp (i.of s) (j.of t))) =
        .ok (cmp.extension {s.1, s.1, s.2, s.2} {t.1, t.2}) ∧
      (deniedWithAsserted.run fun i j => .ok (cmp (i.of s) (j.of t))) ≠ .ok equivalent := by
  have first := run_eq_ok (fun i j => rfl) equations (f := fun i j => cmp (i.of s) (j.of t))
  have second := run_eq_ok (fun i j => rfl) deniedWithAsserted (f := fun i j => cmp (i.of s) (j.of t))
  rw [acyclic.runListing_equations] at first
  rw [acyclic.runListing_deniedWithAsserted] at second
  refine ⟨first, second, ?_⟩
  rw [second, acyclic.toFaithful.extension_doubled_pair]
  intro same
  exact Answers.deniedWithAsserted_ne_equivalent _ (Except.ok.inj same)

/-- Numbers compared with their neighbours only. -/
def neighbours : Comparison Nat := fun a b =>
  if a = b then equivalent else if a = b + 1 then greater else if b = a + 1 then smaller
  else incomparable

theorem neighbours_eq_greater_iff {a b : Nat} : neighbours a b = greater ↔ a = b + 1 := by
  simp only [neighbours]
  split_ifs <;> simp <;> omega

theorem neighbours_acyclic : neighbours.Acyclic where
  flip_eq a b := by
    simp only [neighbours]
    grind [TermOrdering.flip]
  equivalent_iff a b := by
    simp only [neighbours]
    split_ifs with same <;> simp [same]
  no_cycle a chain := by
    have lower {x y : Nat} (chain : Relation.TransGen (fun x y => neighbours x y = greater) x y) :
        y < x := by
      induction chain with
      | single step =>
          rw [neighbours_eq_greater_iff] at step
          omega
      | tail _ step ih =>
          rw [neighbours_eq_greater_iff] at step
          omega
    exact Nat.lt_irrefl a (lower chain)

/-- That `3` exceeds `2` and `2` exceeds `1` says nothing about `3` and `1` here, and so nothing
about `3, 2` and `2, 1`. But `2` exceeds `1` however often it is taken. -/
theorem run_eq_extension_neighbours :
    neighbours 3 1 = incomparable ∧
      (equations.run fun i j => .ok (neighbours (i.of (3, 2)) (j.of (2, 1)))) =
        .ok (neighbours.extension {3, 2} {2, 1}) ∧
      neighbours.extension {3, 2} {2, 1} = incomparable ∧
      (deniedWithAsserted.run fun i j => .ok (neighbours (i.of (1, 1)) (j.of (2, 3)))) =
        .ok (neighbours.extension {1, 1, 1, 1} {2, 3}) ∧
      neighbours.extension {1, 1, 1, 1} {2, 3} = smaller :=
  ⟨rfl, (run_eq_extension neighbours_acyclic (3, 2) (2, 1)).1, by decide,
    (run_eq_extension neighbours_acyclic (1, 1) (2, 3)).2.1, by decide⟩

end DecisionTree

end SaturationCore
