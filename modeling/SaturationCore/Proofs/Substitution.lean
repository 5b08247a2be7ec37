/-
# Substitutions and what they solve

A substitution gives a term to every variable, all at once and once for all. It is
the yardstick for ledgers, which give terms to some variables, one binding after
the other, and whose instances mention further bound variables. A substitution
solves a ledger when it agrees with every binding; a ledger is known by the
substitutions that solve it.

Instances are compared by their spellings. The instance of a complete spelling is
complete again, so two instances agree exactly when their arguments do, place by
place.
-/
import SaturationCore.Ledger.Unifier
import SaturationCore.Proofs.Spelling

namespace SaturationCore

/-- A term for every variable. -/
abbrev Substitution := Variable → Flatterm

namespace Substitution

/-- What a head is replaced by. -/
def onHead (θ : Substitution) : Head → List Head
  | .var v => (θ v).spelling
  | h => [h]

/-- The instance of a spelling. -/
def instantiate (θ : Substitution) (hs : List Head) : List Head :=
  hs.flatMap θ.onHead

/-- The substitution makes two subterms equal. -/
def Unifies (θ : Substitution) (a b : Subterm) : Prop :=
  θ.instantiate a.spelling = θ.instantiate b.spelling

/-- The substitution gives every bound variable what it gives to its instance. -/
def Solves (θ : Substitution) (σ : Unifier) : Prop :=
  ∀ v t, σ.get? v = some t → (θ v).spelling = θ.instantiate t.spelling

variable (θ : Substitution)

theorem instantiate_cons (h : Head) (hs : List Head) :
    θ.instantiate (h :: hs) = θ.onHead h ++ θ.instantiate hs := rfl

@[simp]
theorem instantiate_append (as bs : List Head) :
    θ.instantiate (as ++ bs) = θ.instantiate as ++ θ.instantiate bs :=
  List.flatMap_append

@[simp]
theorem instantiate_var (v : Variable) : θ.instantiate [.var v] = (θ v).spelling :=
  List.append_nil _

theorem onHead_of_not_isVariable {h : Head} (rigid : h.isVariable = false) : θ.onHead h = [h] := by
  cases h with
  | var v => cases rigid
  | symbol s => rfl
  | binder v => rfl

variable {θ}

/-- The variables of an instance are those of what the variables are given. -/
theorem var_mem_instantiate_iff {hs : List Head} {v : Variable} :
    .var v ∈ θ.instantiate hs ↔ ∃ u, .var u ∈ hs ∧ .var v ∈ (θ u).spelling := by
  rw [instantiate, List.mem_flatMap]
  constructor
  · rintro ⟨h, here, within⟩
    cases h with
    | var u => exact ⟨u, here, within⟩
    | symbol s => cases List.mem_singleton.1 within
    | binder u => cases List.mem_singleton.1 within
  · rintro ⟨u, here, within⟩
    exact ⟨_, here, within⟩

theorem spells_instantiate {n : Nat} {hs : List Head} (spells : Spells n hs) :
    Spells n (θ.instantiate hs) := by
  induction spells with
  | nil => exact .nil
  | @cons n h rest _ ih =>
      rw [instantiate_cons]
      cases h with
      | var v =>
          rw [Nat.add_comm]
          exact (θ v).spells.append ih
      | symbol s => exact ih.cons
      | binder v => exact ih.cons

/-- The instance of a spelling is at least as long as that of a variable in it. -/
theorem length_le_of_mem {hs : List Head} {v : Variable} (h : .var v ∈ hs) :
    (θ v).spelling.length ≤ (θ.instantiate hs).length := by
  obtain ⟨front, back, rfl⟩ := List.append_of_mem h
  rw [instantiate_append, instantiate_cons, List.length_append, List.length_append]
  exact Nat.le_trans (Nat.le_add_right _ _) (Nat.le_add_left _ _)

/-- Two rows of subterms have one instance exactly when they agree place by place. -/
theorem instantiate_flatMap_eq_iff {as bs : List Subterm} (len : as.length = bs.length) :
    θ.instantiate (as.flatMap Subterm.spelling) = θ.instantiate (bs.flatMap Subterm.spelling) ↔
      ∀ p ∈ as.zip bs, θ.Unifies p.1 p.2 := by
  induction as generalizing bs with
  | nil =>
      cases bs with
      | nil => simp
      | cons b bs => simp at len
  | cons a as ih =>
      cases bs with
      | nil => simp at len
      | cons b bs =>
          rw [List.length_cons, List.length_cons, Nat.add_right_cancel_iff] at len
          rw [List.zip_cons_cons, List.forall_mem_cons, ← ih len, List.flatMap_cons,
            List.flatMap_cons, instantiate_append, instantiate_append, Unifies]
          constructor
          · intro same
            exact (spells_instantiate a.spells).cancel (spells_instantiate b.spells) same
          · rintro ⟨first, rest⟩
            rw [first, rest]

end Substitution

end SaturationCore
