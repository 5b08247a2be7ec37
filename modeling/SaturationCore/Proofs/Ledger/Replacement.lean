/-
# Trees under a ledger of trees

A ledger of trees is read one level deep: in a tree, the leaves with bound variables are
replaced by the instances, as they stand. The tree that comes of this is spelled as the
ledger spells the instance, and it is what applying the ledger answers.

Matching asks for instances that make a pattern a target. A ledger keeps another one when
it gives its bound variables the same instances. What keeps a ledger with one more binding
is what keeps the ledger and gives the variable its instance, even where the instance is
the variable itself and need not be bound at all.
-/
import SaturationCore.Ledger.Matcher
import SaturationCore.Proofs.Flatterm
import SaturationCore.Proofs.Ledger.Instance

namespace SaturationCore

namespace TreeMatcher

mutual

/-- The tree with its bound variables replaced by their instances. -/
def replace (σ : TreeMatcher) : Term → Term
  | .var v => σ.deref (.var v)
  | .app role s args => .app role s (replaceAll σ args)
  | .abstraction v body => .abstraction v (replace σ body)

/-- Several trees with their bound variables replaced by their instances. -/
def replaceAll (σ : TreeMatcher) : List Term → List Term
  | [] => []
  | t :: ts => replace σ t :: replaceAll σ ts

end

variable {σ τ υ ω : TreeMatcher}

theorem replaceAll_eq_map (σ : TreeMatcher) (ts : List Term) :
    replaceAll σ ts = ts.map σ.replace := by
  induction ts with
  | nil => rfl
  | cons t ts ih => rw [replaceAll, ih, List.map_cons]

@[simp]
theorem replace_var (σ : TreeMatcher) (v : Variable) : σ.replace (.var v) = σ.deref (.var v) := by
  rw [replace]

@[simp]
theorem replace_app (σ : TreeMatcher) (role : SymbolKind) (s : Symbol) (args : List Term) :
    σ.replace (.app role s args) = .app role s (args.map σ.replace) := by
  rw [replace, replaceAll_eq_map]

@[simp]
theorem replace_abstraction (σ : TreeMatcher) (v : Variable) (body : Term) :
    σ.replace (.abstraction v body) = .abstraction v (σ.replace body) := by
  rw [replace]

theorem replace_empty (t : Term) : replace .empty t = t := by
  induction t using Term.induction with
  | var v => exact replace_var _ v
  | app role s args ih =>
      rw [replace_app, List.map_congr_left ih, List.map_id']
  | abstraction v body ih => rw [replace_abstraction, ih]

theorem head_replace {t : Term} (rigid : ∀ v, t.head ≠ .var v) : (σ.replace t).head = t.head := by
  cases t with
  | var v => exact absurd rfl (rigid v)
  | app role s args => rw [replace_app]; rfl
  | abstraction v body => rw [replace_abstraction]; rfl

/-- Replacing agrees with how the ledger spells instances. -/
theorem spellInstanceOnto_eq_replace (σ : TreeMatcher) (t : Term) (rest : List Head) :
    spellInstanceOnto σ t rest = (σ.replace t).spelling ++ rest := by
  induction t using Term.induction generalizing rest with
  | var v =>
      rw [spellInstanceOnto, replace_var, deref_var]
      cases σ.get? v with
      | none => rfl
      | some t => exact t.spellOnto_eq rest
  | app role s args ih =>
      have row (args : List Term)
          (each : ∀ a ∈ args, ∀ rest, spellInstanceOnto σ a rest = (σ.replace a).spelling ++ rest) :
          spellInstancesOnto σ args rest = (args.map σ.replace).flatMap Term.spelling ++ rest := by
        induction args with
        | nil => rfl
        | cons a args ih =>
            rw [List.forall_mem_cons] at each
            rw [spellInstancesOnto, each.1, ih each.2, List.map_cons, List.flatMap_cons,
              List.append_assoc]
      rw [spellInstanceOnto, row args ih, replace_app, Term.spelling_eq]
      rfl
  | abstraction v body ih =>
      rw [spellInstanceOnto, ih, replace_abstraction, Term.spelling_eq (.abstraction v _),
        Term.args, List.flatMap_singleton]
      rfl

theorem instanceSpelling_eq_replace (σ : TreeMatcher) (t : Term) :
    σ.instanceSpelling t = (σ.replace t).spelling := by
  rw [instanceSpelling, spellInstanceOnto_eq_replace, List.append_nil]

theorem built_replace {fits : SymbolKind → Symbol → Prop}
    (instances : ∀ v t, σ.get? v = some t → t.Built fits) {t : Term} (built : t.Built fits) :
    (σ.replace t).Built fits := by
  induction built with
  | var v =>
      rw [replace_var, deref_var]
      cases bound : σ.get? v with
      | none => exact .var v
      | some t => exact instances v t bound
  | @app role s args fit len _ ih =>
      rw [replace_app]
      refine .app fit ((List.length_map _).trans len) fun a ha => ?_
      obtain ⟨b, hb, rfl⟩ := List.mem_map.1 ha
      exact ih b hb
  | abstraction _ ih =>
      rw [replace_abstraction]
      exact .abstraction ih

/-- Applying a ledger replaces the bound variables, if that makes a regular tree. -/
theorem apply_of_replace_eq {t u : Term} (made : σ.replace t = u) (regular : u.Regular) :
    σ.apply t = .ok u := by
  obtain ⟨s, laidOut, spelled⟩ := Subterm.ofSpelling_of_spells regular.spells
  rw [TreeMatcher.apply, instanceSpelling_eq_replace, made, laidOut]
  exact Subterm.toTerm_of_spelling_eq regular spelled

/-- Applying a ledger of well-formed trees replaces the bound variables. -/
theorem apply_eq_replace {sig : Signature} (regular : ∀ s, sig.Declares s → s.Regular)
    (instances : ∀ v t, σ.get? v = some t → t.WellFormed sig) {t : Term} (wf : t.WellFormed sig) :
    σ.apply t = .ok (σ.replace t) := by
  have wf' : (σ.replace t).WellFormed sig := built_replace instances wf
  exact apply_of_replace_eq rfl (wf'.regular regular)

/-! ## Ledgers that keep another -/

/-- Every instance is without quantifiers. -/
def Plain (σ : TreeMatcher) : Prop :=
  ∀ v t, σ.get? v = some t → t.isQuantifierFree = true

/-- What is bound in `σ` stands for the same instance in `ω`. -/
def Keeps (ω σ : TreeMatcher) : Prop :=
  ∀ v t, σ.get? v = some t → ω.deref (.var v) = t

theorem deref_of_bound {v : Variable} {t : Term} (bound : σ.get? v = some t) :
    σ.deref (.var v) = t := by
  rw [deref_var, bound, Option.getD_some]

theorem keeps_of_get? (kept : ∀ v t, σ.get? v = some t → ω.get? v = some t) : ω.Keeps σ :=
  fun v t bound => deref_of_bound (kept v t bound)

theorem Keeps.refl (σ : TreeMatcher) : σ.Keeps σ :=
  keeps_of_get? fun _ _ bound => bound

theorem keeps_push {v : Variable} {t : Term} (unbound : σ.get? v = none) :
    ω.Keeps (σ.push v t) ↔ ω.Keeps σ ∧ ω.deref (.var v) = t := by
  constructor
  · intro keeps
    refine ⟨fun u s bound => keeps u s ?_, keeps v t (by rw [Ledger.get?_push, if_pos rfl])⟩
    rw [Ledger.get?_push, if_neg, bound]
    rintro rfl
    rw [unbound] at bound
    cases bound
  · rintro ⟨keeps, here⟩ u s bound
    rw [Ledger.get?_push] at bound
    split at bound
    · next same =>
        rw [same, here]
        exact Option.some.inj bound
    · exact keeps u s bound

theorem plain_empty : Plain .empty := fun _ _ bound => nomatch bound

theorem Plain.push {v : Variable} {t : Term} (plain : σ.Plain) (free : t.isQuantifierFree = true) :
    Plain (σ.push v t) :=
  Ledger.forall_get?_push plain free

end TreeMatcher

end SaturationCore
