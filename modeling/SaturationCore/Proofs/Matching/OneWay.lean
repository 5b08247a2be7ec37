/-
# What matching answers

An attempt to match succeeds exactly when neither side has a quantifier or an abstraction and
some ledger makes the pattern the target, as it stands: one that keeps the bindings made so far
and binds nothing else than variables of the pattern. Then what is bound is just what has to be,
each unbound variable of the pattern once. Otherwise the ledger is as it was before.

This is one statement about both ledgers that are read one level deep. It is shown of trees,
where instances can be compared as trees, and carried over to subterms, for which there always
are trees.
-/
import SaturationCore.Proofs.Matching.Layout
import SaturationCore.Proofs.Matching.Tree

namespace SaturationCore

section

variable {ι : Type} {σ τ ω : Ledger ι} {plain : Prop} {mentioned : Variable → Prop}
  {makes : Ledger ι → Prop}

namespace Matching

end Matching

end

/-! ## Trees -/

namespace TreeMatcher

variable {σ : TreeMatcher} {p t : Term}

end TreeMatcher

/-! ## Subterms -/

namespace Matcher

variable {σ ω : Matcher} {τ υ : TreeMatcher} {p t : Subterm}

/-- Every instance is without quantifiers. -/
def Plain (σ : Matcher) : Prop :=
  ∀ v s, σ.get? v = some s → s.isQuantifierFree = true

theorem LaysOut.plain (laid : σ.LaysOut τ) (plain : σ.Plain) : τ.Plain := by
  intro v t bound
  obtain ⟨s, found, same⟩ := laid.exists_get? bound
  rw [← same.isQuantifierFree_eq]
  exact plain v s found

end Matcher

/-! ## Both ways to match -/

end SaturationCore
