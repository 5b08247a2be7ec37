/-
# Instances of trees

A ledger of trees is read one level deep, so it acts on spellings as a substitution: an
occurrence of a bound variable is replaced by the spelling of the instance, whatever
variables occur in there, and an unbound one stays. The instance of a term is spelled
that way, and where constants and quantifiers have the arities they should have, it can
be taken apart into a tree again.
-/
import SaturationCore.Ledger.Matcher
import SaturationCore.Proofs.Substitution
import SaturationCore.Proofs.WellFormed

namespace SaturationCore

/-- The symbols of an instance come from the spelling or from what a variable is given. -/
theorem Substitution.symbolsOf_instantiate_subset {θ : Substitution} {alphabet : Set Symbol}
    {hs : List Head} (known : symbolsOf hs ⊆ alphabet)
    (instances : ∀ v, symbolsOf (θ v).spelling ⊆ alphabet) :
    symbolsOf (θ.instantiate hs) ⊆ alphabet := by
  intro s hs
  obtain ⟨h, inside, here⟩ := List.mem_flatMap.1 hs
  cases h with
  | var v => exact instances v here
  | symbol t =>
      cases List.mem_singleton.1 here
      exact known inside
  | binder v => cases List.mem_singleton.1 here

namespace TreeMatcher

variable {σ : TreeMatcher} {θ : Substitution} {alphabet : Set Symbol}

/-- Every instance is a term over the symbols. -/
def Over (σ : TreeMatcher) (alphabet : Set Symbol) : Prop :=
  ∀ v t, σ.get? v = some t → t.Over alphabet

/-- The substitution gives every variable what it stands for in the ledger. -/
def Reads (σ : TreeMatcher) (θ : Substitution) : Prop :=
  ∀ v, (θ v).spelling = (σ.deref (.var v)).spelling

theorem deref_var (σ : TreeMatcher) (v : Variable) :
    σ.deref (.var v) = (σ.get? v).getD (.var v) := rfl

theorem Over.deref_var (ledger : σ.Over alphabet) (v : Variable) :
    (σ.deref (.var v)).Over alphabet := by
  rw [σ.deref_var]
  cases bound : σ.get? v with
  | none => exact .var v
  | some t => exact ledger v t bound

theorem Over.exists_reads (ledger : σ.Over alphabet) : ∃ θ, σ.Reads θ := by
  choose θ _ spelled using fun v => Flatterm.ofSpelling_of_spells (ledger.deref_var v).spells
  exact ⟨θ, spelled⟩

theorem Reads.symbolsOf_subset (reads : σ.Reads θ) (ledger : σ.Over alphabet) (v : Variable) :
    symbolsOf (θ v).spelling ⊆ alphabet := by
  rw [reads v]
  exact (ledger.deref_var v).symbolsOf_subset

theorem Reads.spelling_of_unbound (reads : σ.Reads θ) {v : Variable} (unbound : σ.get? v = none) :
    (θ v).spelling = [.var v] := by
  rw [reads v, σ.deref_var, unbound]
  rfl

theorem Reads.spelling_of_bound (reads : σ.Reads θ) {v : Variable} {r : Term}
    (bound : σ.get? v = some r) : (θ v).spelling = r.spelling := by
  rw [reads v, σ.deref_var, bound, Option.getD_some]

/-- A variable of an instance has been there before or comes from what a variable is bound to. -/
theorem Reads.var_mem_instantiate (reads : σ.Reads θ) {hs : List Head} {v : Variable}
    (inside : .var v ∈ θ.instantiate hs) :
    .var v ∈ hs ∨ ∃ u r, σ.get? u = some r ∧ r.mentions v = true := by
  obtain ⟨u, here, within⟩ := Substitution.var_mem_instantiate_iff.1 inside
  cases bound : σ.get? u with
  | none =>
      rw [reads.spelling_of_unbound bound] at within
      cases List.mem_singleton.1 within
      exact .inl here
  | some r =>
      rw [reads.spelling_of_bound bound] at within
      exact .inr ⟨u, r, bound, Term.mentions_iff_mem.2 within⟩

theorem Reads.spellInstancesOnto_eq {ts : List Term} (rest : List Head)
    (each : ∀ t ∈ ts, ∀ rest, spellInstanceOnto σ t rest = θ.instantiate t.spelling ++ rest) :
    spellInstancesOnto σ ts rest = θ.instantiate (ts.flatMap Term.spelling) ++ rest := by
  induction ts with
  | nil => rfl
  | cons t ts ih =>
      rw [List.forall_mem_cons] at each
      rw [spellInstancesOnto, each.1, ih each.2, List.flatMap_cons, Substitution.instantiate_append,
        List.append_assoc]

theorem Reads.spellInstanceOnto_eq (reads : σ.Reads θ) (t : Term) (rest : List Head) :
    spellInstanceOnto σ t rest = θ.instantiate t.spelling ++ rest := by
  induction t using Term.induction generalizing rest with
  | var v =>
      rw [Term.spelling_eq, Term.head, Term.args, List.flatMap_nil, Substitution.instantiate_var,
        reads v, deref_var, spellInstanceOnto]
      cases σ.get? v with
      | none => rfl
      | some t => exact t.spellOnto_eq rest
  | app role s args ih =>
      rw [Term.spelling_eq, spellInstanceOnto, Reads.spellInstancesOnto_eq rest ih]
      rfl
  | abstraction v body ih =>
      rw [Term.spelling_eq, Term.args, List.flatMap_singleton, spellInstanceOnto, ih]
      rfl

/-- The instance of a term is spelled as its instance under the substitution. -/
theorem Reads.instanceSpelling_eq (reads : σ.Reads θ) (t : Term) :
    σ.instanceSpelling t = θ.instantiate t.spelling := by
  rw [instanceSpelling, reads.spellInstanceOnto_eq, List.append_nil]

/-- Applying a ledger gives a tree that is spelled as the instance. -/
theorem Reads.apply_eq (reads : σ.Reads θ) (ledger : σ.Over alphabet)
    (regular : ∀ s ∈ alphabet, s.Regular) {t : Term} (known : t.Over alphabet) :
    ∃ t', σ.apply t = .ok t' ∧ t'.spelling = θ.instantiate t.spelling := by
  obtain ⟨s, laidOut, spelled⟩ :=
    Subterm.ofSpelling_of_spells (Substitution.spells_instantiate known.spells)
  have symbols : symbolsOf s.spelling ⊆ alphabet := by
    rw [spelled]
    exact Substitution.symbolsOf_instantiate_subset known.symbolsOf_subset
      (reads.symbolsOf_subset ledger)
  obtain ⟨t', taken, spelled'⟩ := Subterm.toTerm_of_regular fun f hf => regular f (symbols hf)
  refine ⟨t', ?_, spelled'.trans spelled⟩
  rw [TreeMatcher.apply, reads.instanceSpelling_eq, laidOut]
  exact taken

end TreeMatcher

end SaturationCore
