/-
# Instances of greater literals are greater

A map that keeps the greater of two elements keeps the greater of two multisets: what is
left of either multiset may come to meet common elements, which are cancelled then, but an
element that exceeds another is never lost without an element as great. So the standings of
literals, which are multisets of sides or single atoms, stay in their order when each
spelling is replaced by its instance.

The instance of a literal has the instance of its atom and its polarity. It is an equation
just when the literal is one, of the instances of the sides.
-/
import SaturationCore.Proofs.Ledger.Replacement
import SaturationCore.Proofs.Order.Literal
import SaturationCore.Proofs.Order.Stability

namespace SaturationCore

open TermOrdering

/-! ## Standings -/

/-- A map that keeps what is greater keeps which multiset is greater. -/
theorem Comparison.Strict.extension_map {α : Type} [DecidableEq α] {cmp : Comparison α}
    (strict : cmp.Strict) {f : α → α} (keeps : ∀ a b, cmp a b = greater → cmp (f a) (f b) = greater)
    {M N : Multiset α} (above : cmp.extension M N = greater) :
    cmp.extension (M.map f) (N.map f) = greater := by
  rw [strict.extension_eq_greater_iff_multisetLT] at *
  obtain ⟨X, Y, Z, some, rfl, rfl, below⟩ := above
  refine ⟨X.map f, Y.map f, Z.map f, mt Multiset.map_eq_zero.1 some, Multiset.map_add f X Y,
    Multiset.map_add f X Z, ?_⟩
  intro b hb
  obtain ⟨y, hy, rfl⟩ := Multiset.mem_map.1 hb
  obtain ⟨z, hz, greater⟩ := below y hy
  exact ⟨f z, Multiset.mem_map_of_mem f hz, keeps z y greater⟩

theorem map_sidesTaken {α β : Type} (f : α → β) (polarity : Bool) (s : α × α) :
    (sidesTaken polarity s).map f = sidesTaken polarity (s.map f f) := by
  cases polarity <;> simp [sidesTaken]

namespace Standing

variable {α : Type} [DecidableEq α] {cmp : Comparison α}

/-- The standing with each side, or the atom, replaced. -/
def map (f : α → α) : Standing α → Standing α
  | equation sides => equation (sides.map f)
  | other atom polarity => other (f atom) polarity

/-- A map that keeps what is greater keeps which standing is greater. -/
theorem compare_map (strict : cmp.Strict) {f : α → α}
    (keeps : ∀ a b, cmp a b = greater → cmp (f a) (f b) = greater) {s t : Standing α}
    (above : compare cmp s t = greater) : compare cmp (s.map f) (t.map f) = greater := by
  cases s with
  | equation M =>
      cases t with
      | equation N => exact strict.extension_map keeps above
      | other b q => cases above
  | other a p =>
      cases t with
      | equation N => rfl
      | other b q =>
          rw [compare, breakTie_eq_greater_iff] at above
          rw [map, map, compare, breakTie_eq_greater_iff]
          obtain above | ⟨level, polarities⟩ := above
          · exact .inl (keeps a b above)
          · rw [strict.equivalent_iff] at level
            exact .inr ⟨(strict.equivalent_iff _ _).2 (congrArg f level), polarities⟩

end Standing

/-! ## Literals -/

namespace Literal

variable {σ : Signature} {τ : TreeMatcher} {θ : Substitution} {l : Literal}

/-- The instance of a literal is as well-formed as the literal. -/
theorem Shape.replace (instances : ∀ v t, τ.get? v = some t → t.WellFormed σ) (shape : l.Shape σ) :
    Shape σ ⟨τ.replace l.atom, l.polarity⟩ := by
  cases shape with
  | @equation s t polarity wfS wfT =>
      rw [Term.equality, TreeMatcher.replace_app]
      exact .equation polarity (TreeMatcher.built_replace instances wfS)
        (TreeMatcher.built_replace instances wfT)
  | @other p args polarity other wf =>
      have wf' := TreeMatcher.built_replace instances wf
      rw [TreeMatcher.replace_app] at wf' ⊢
      exact .other polarity other wf'

/-- The instance of a literal has the standing of the literal with instances in it. -/
theorem Shape.standing_replace (reads : τ.Reads θ) (shape : l.Shape σ) :
    (Literal.mk (τ.replace l.atom) l.polarity).standing = l.standing.map θ.instantiate := by
  have spelled (t : Term) : (τ.replace t).spelling = θ.instantiate t.spelling := by
    rw [← τ.instanceSpelling_eq_replace, reads.instanceSpelling_eq]
  cases shape with
  | @equation s t polarity wfS wfT =>
      have sides : τ.replace (.equality s t) = .equality (τ.replace s) (τ.replace t) :=
        τ.replace_app _ _ _
      rw [sides, standing_equation, standing_equation, Standing.map, map_sidesTaken, spelled,
        spelled]
      rfl
  | @other p args polarity other wf =>
      have atom := spelled (.app .predicate p args)
      rw [TreeMatcher.replace_app] at atom ⊢
      rw [standing_other other, standing_other other, Standing.map, atom]

end Literal

namespace KnuthBendix

variable {k : KnuthBendix} {σ : Signature} {τ : TreeMatcher} {a b : Literal}

/-- Under weights for which instances of greater terms are greater, what one literal exceeds another
by is kept by all their instances: their atoms can be built, and the first exceeds the second unless
a weight leaves its range. -/
theorem compareLiterals_apply (grown : σ.Grown) (admissible : k.Admissible σ.Declares)
    (wfA : a.WellFormed σ) (wfB : b.WellFormed σ)
    (instances : ∀ v t, τ.get? v = some t → t.WellFormed σ)
    (above : k.compareLiterals a b = .ok greater) :
    ∃ a' b', τ.apply a.atom = .ok a' ∧ τ.apply b.atom = .ok b' ∧
      (k.compareLiterals ⟨a', a.polarity⟩ ⟨b', b.polarity⟩ ≠ .error .overflow →
        k.compareLiterals ⟨a', a.polarity⟩ ⟨b', b.polarity⟩ = .ok greater) := by
  have shapeA := wfA.shape grown
  have shapeB := wfB.shape grown
  have known : τ.Over σ.Declares := fun v t bound => (instances v t bound).over
  obtain ⟨θ, reads⟩ := known.exists_reads
  have standings := Standing.compare_map (f := θ.instantiate) k.outcome_strict
    (fun _ _ => admissible.outcome_instantiate (reads.symbolsOf_subset known))
    ((yields_compareLiterals shapeA shapeB).eq_of_eq_ok above).symm
  refine ⟨τ.replace a.atom, τ.replace b.atom,
    TreeMatcher.apply_eq_replace grown.regular instances wfA.atom,
    TreeMatcher.apply_eq_replace grown.regular instances wfB.atom, fun fits => ?_⟩
  rw [(yields_compareLiterals (shapeA.replace instances) (shapeB.replace instances)).eq_ok fits,
    shapeA.standing_replace reads, shapeB.standing_replace reads, standings]

/-- An asserted equation exceeds a denied one, of which it has no side. Where a variable is bound to
a side of the former, the instances have a side in common. -/
theorem compareLiterals_apply_cancelled :
    let σ := (Signature.initial.internFunction "f" 1).2
    let f (t : Term) : Term := .app .function (Signature.initial.internFunction "f" 1).1 [t]
    let x : Term := .var ⟨0, 0⟩
    let y : Term := .var ⟨0, 1⟩
    let a : Literal := ⟨.equality (f x) (f y), true⟩
    let b : Literal := ⟨.equality x y, false⟩
    let τ : TreeMatcher := Ledger.empty.push ⟨0, 0⟩ (f y)
    (σ.Grown ∧ standard.Admissible σ.Declares ∧ a.WellFormed σ ∧ b.WellFormed σ) ∧
      standard.compareLiterals a b = .ok greater ∧
      τ.apply a.atom = .ok (.equality (f (f y)) (f y)) ∧ τ.apply b.atom = .ok (.equality (f y) y) ∧
      standard.compareLiterals ⟨.equality (f (f y)) (f y), true⟩ ⟨.equality (f y) y, false⟩ =
        .ok greater := by
  intro σ f x y a b τ
  have grown : σ.Grown := .function "f" 1 .initial
  have wfA : a.WellFormed σ := by decide +kernel
  have wfB : b.WellFormed σ := by decide +kernel
  have wfFy : (f y).WellFormed σ := by decide +kernel
  have instances : ∀ v t, τ.get? v = some t → t.WellFormed σ :=
    Ledger.forall_get?_push nofun wfFy
  have above : standard.compareLiterals a b = .ok greater := by decide +kernel
  have appliedA : τ.apply a.atom = .ok (.equality (f (f y)) (f y)) := by decide +kernel
  have appliedB : τ.apply b.atom = .ok (.equality (f y) y) := by decide +kernel
  have fits : standard.compareLiterals ⟨.equality (f (f y)) (f y), true⟩
      ⟨.equality (f y) y, false⟩ ≠ .error .overflow := by decide +kernel
  obtain ⟨a', b', madeA, madeB, kept⟩ :=
    compareLiterals_apply grown (standard_admissible _) wfA wfB instances above
  cases appliedA.symm.trans madeA
  cases appliedB.symm.trans madeB
  exact ⟨⟨grown, standard_admissible _, wfA, wfB⟩, above, appliedA, appliedB, kept fits⟩

end KnuthBendix

end SaturationCore
