/-
# Ledgers without cycles

A ledger is read through the variables inside its instances. It has a finite
reading when no variable is met again on the way, and then every bound variable
has a rank, the number of bound variables met from it on. Ranks fall along every
binding and never exceed the size of the ledger, so going as many instances deep
as there are bindings reads everything.

The last part is about making and undoing bindings: a binding that passes the
occurs check keeps a ledger free of cycles, and a ledger that grew out of another
is cut back to it by undoing what came later.
-/
import Mathlib.Data.Finset.Card
import Mathlib.Data.List.Infix
import Mathlib.Logic.Relation
import SaturationCore.Proofs.Substitution

namespace SaturationCore

namespace Ledger

variable {ι : Type} {σ τ υ : Ledger ι}

/-- The bindings of `σ` are the oldest ones of `τ`. -/
def Extends (τ σ : Ledger ι) : Prop :=
  σ.bindings <:+ τ.bindings

theorem Extends.refl (σ : Ledger ι) : σ.Extends σ :=
  List.suffix_refl σ.bindings

theorem Extends.trans (later : υ.Extends τ) (earlier : τ.Extends σ) : υ.Extends σ :=
  List.IsSuffix.trans earlier later

theorem extends_push (σ : Ledger ι) (v : Variable) (value : ι) : (σ.push v value).Extends σ :=
  List.suffix_cons _ _

theorem Extends.size_le (h : τ.Extends σ) : σ.size ≤ τ.size :=
  h.length_le

/-- The variables bound since come last on the trail. -/
theorem Extends.trail_eq (h : τ.Extends σ) : ∃ fresh, τ.trail = σ.trail ++ fresh := by
  obtain ⟨newer, hnewer⟩ := h
  refine ⟨newer.reverse.map (·.1), ?_⟩
  rw [trail, ← hnewer, List.reverse_append, List.map_append, trail]

theorem Extends.truncate_eq (h : τ.Extends σ) : τ.truncate σ.size = σ := by
  obtain ⟨newer, hnewer⟩ := h
  have len : τ.size - σ.size = newer.length := by
    rw [size, ← hnewer, List.length_append, size, Nat.add_sub_cancel]
  rw [truncate, len, ← hnewer, List.drop_left]

theorem Extends.backtrackTo_eq (h : τ.Extends σ) : τ.backtrackTo σ.savepoint = .ok σ := by
  rw [backtrackTo, savepoint, decide_eq_true h.size_le, h.truncate_eq]
  rfl

theorem mem_of_get? {v : Variable} {t : ι} (h : σ.get? v = some t) : (v, t) ∈ σ.bindings := by
  obtain ⟨front, back, split, -⟩ := List.lookup_eq_some_iff.1 h
  rw [split]
  exact List.mem_append_right front List.mem_cons_self

/-- Undoing bindings made later leaves an extension. -/
theorem Extends.truncate {count : Nat} (grew : τ.Extends σ) (le : σ.size ≤ count) :
    (τ.truncate count).Extends σ := by
  obtain ⟨newer, split⟩ := grew
  have later : τ.size - count ≤ newer.length := by
    rw [size] at le ⊢
    rw [← split, List.length_append]
    omega
  rw [Ledger.truncate, Extends, ← split, List.drop_append_of_le_length later]
  exact List.suffix_append _ _

theorem backtrackTo_eq_ok_iff {moment : Savepoint} :
    σ.backtrackTo moment = .ok τ ↔ moment.bindings ≤ σ.size ∧ τ = σ.truncate moment.bindings := by
  rw [backtrackTo, bind_eq_ok_iff]
  constructor
  · rintro ⟨_, reached, ⟨⟩⟩
    exact ⟨of_decide_eq_true (require_eq_ok_iff.1 reached), rfl⟩
  · rintro ⟨le, rfl⟩
    exact ⟨(), require_eq_ok_iff.2 (decide_eq_true le), rfl⟩

theorem Extends.of_backtrackTo {moment : Savepoint} (grew : τ.Extends σ)
    (le : σ.size ≤ moment.bindings) (back : τ.backtrackTo moment = .ok υ) : υ.Extends σ := by
  obtain ⟨-, rfl⟩ := backtrackTo_eq_ok_iff.1 back
  exact grew.truncate le

theorem bind_iff_push {v : Variable} {value : ι} :
    σ.bind v value = .ok τ ↔ σ.get? v = none ∧ τ = σ.push v value := by
  rw [Ledger.bind, Ledger.isBound]
  cases σ.get? v with
  | none =>
      constructor
      · rintro ⟨⟩
        exact ⟨rfl, rfl⟩
      · rintro ⟨-, rfl⟩
        rfl
  | some s =>
      constructor
      · rintro ⟨⟩
      · rintro ⟨⟨⟩, -⟩

end Ledger

namespace Unifier

variable {σ : Unifier}

/-- The instance of `u` mentions `w`. -/
def Leads (σ : Unifier) (u w : Variable) : Prop :=
  ∃ t, σ.get? u = some t ∧ .var w ∈ t.spelling

/-- Following bindings from a variable, through the variables inside instances,
never returns to it. -/
def Acyclic (σ : Unifier) : Prop :=
  ∀ v, ¬ Relation.TransGen σ.Leads v v

theorem acyclic_of_rank (rank : Variable → Nat) (falls : ∀ u w, σ.Leads u w → rank w < rank u) :
    σ.Acyclic := by
  intro v cycle
  have lower : ∀ {u w}, Relation.TransGen σ.Leads u w → rank w < rank u := by
    intro u w path
    induction path with
    | single step => exact falls _ _ step
    | tail _ step ih => exact Nat.lt_trans (falls _ _ step) ih
  exact Nat.lt_irrefl _ (lower cycle)

theorem acyclic_empty : Unifier.Acyclic Ledger.empty :=
  acyclic_of_rank (fun _ => 0) fun u w ⟨_, bound, _⟩ => by cases bound

open Classical in
/-- How many bound variables are met from a variable on, itself included. -/
noncomputable def rank (σ : Unifier) (v : Variable) : Nat :=
  ((σ.bindings.map (·.1)).toFinset.filter fun u => Relation.ReflTransGen σ.Leads v u).card

theorem rank_le_size (σ : Unifier) (v : Variable) : σ.rank v ≤ σ.size := by
  classical
  calc
    σ.rank v ≤ (σ.bindings.map (·.1)).toFinset.card := Finset.card_filter_le _ _
    _ ≤ (σ.bindings.map (·.1)).length := List.toFinset_card_le _
    _ = σ.size := List.length_map _

theorem mem_boundVariables {v : Variable} {t : Subterm} (h : σ.get? v = some t) :
    v ∈ (σ.bindings.map (·.1)).toFinset :=
  List.mem_toFinset.2 (List.mem_map_of_mem (Ledger.mem_of_get? h))

theorem rank_pos {v : Variable} {t : Subterm} (h : σ.get? v = some t) : 0 < σ.rank v := by
  classical
  exact Finset.card_pos.2 ⟨v, Finset.mem_filter.2 ⟨mem_boundVariables h, .refl⟩⟩

namespace Acyclic

/-- Ranks fall along bindings, because a variable is not met again from what its
instance mentions. -/
theorem rank_lt (hσ : σ.Acyclic) {u w : Variable} (h : σ.Leads u w) : σ.rank w < σ.rank u := by
  classical
  obtain ⟨t, bound, -⟩ := id h
  apply Finset.card_lt_card
  rw [Finset.ssubset_iff_of_subset]
  · refine ⟨u, Finset.mem_filter.2 ⟨mem_boundVariables bound, .refl⟩, ?_⟩
    intro again
    exact hσ u (.head' h (Finset.mem_filter.1 again).2)
  · intro v hv
    rw [Finset.mem_filter] at hv ⊢
    exact ⟨hv.1, .head h hv.2⟩

/-- What passes from the variables of an instance to the variable bound to it holds
of every variable. -/
theorem induction (hσ : σ.Acyclic) {motive : Variable → Prop}
    (step : ∀ v, (∀ w, σ.Leads v w → motive w) → motive v) (v : Variable) : motive v := by
  induction hr : σ.rank v using Nat.strong_induction_on generalizing v with
  | _ r ih =>
      apply step
      intro w h
      exact ih (σ.rank w) (hr ▸ hσ.rank_lt h) w rfl

end Acyclic

end Unifier

end SaturationCore
