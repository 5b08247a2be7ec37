/-
# Free variables

A variable occurs free in a term at a leaf that lies in no abstraction of it. The walk that
collects free variables carries along which variables the abstractions on the way bind, and
leaves those out. So it collects just the variables that occur free.

The variables of a subterm are all those at its leaves, bound or not. Both notions agree on a
term without quantifiers, and in general they do not.
-/
import SaturationCore.Flatterm.Subterm

namespace SaturationCore

namespace Term

/-- The variable stands at a leaf that lies in no abstraction of it. -/
inductive OccursFree (v : Variable) : Term → Prop where
  | var : OccursFree v (.var v)
  | arg {role : SymbolKind} {s : Symbol} {args : List Term} {a : Term} :
      a ∈ args → OccursFree v a → OccursFree v (.app role s args)
  | body {u : Variable} {body : Term} :
      v ≠ u → OccursFree v body → OccursFree v (.abstraction u body)

variable {t : Term} {u v : Variable} {rest : List Variable}

theorem occursFree_var_iff : (Term.var u).OccursFree v ↔ v = u := by
  constructor
  · rintro ⟨⟩
    rfl
  · rintro rfl
    exact .var

theorem occursFree_app_iff {role : SymbolKind} {s : Symbol} {args : List Term} :
    (Term.app role s args).OccursFree v ↔ ∃ a ∈ args, a.OccursFree v := by
  constructor
  · rintro (_ | ⟨argument, inside⟩)
    exact ⟨_, argument, inside⟩
  · rintro ⟨a, argument, inside⟩
    exact .arg argument inside

theorem occursFree_abstraction_iff {body : Term} :
    (Term.abstraction u body).OccursFree v ↔ v ≠ u ∧ body.OccursFree v := by
  constructor
  · rintro (_ | _ | ⟨apart, inside⟩)
    exact ⟨apart, inside⟩
  · rintro ⟨apart, inside⟩
    exact .body apart inside

/-- The walk through a row collects what it collects in each of the terms. -/
theorem mem_freeAllOnto_iff {bound : List Variable} {ts : List Term}
    (each : ∀ t ∈ ts, ∀ rest, v ∈ t.freeOnto bound rest ↔ v ∉ bound ∧ t.OccursFree v ∨ v ∈ rest) :
    v ∈ freeAllOnto bound ts rest ↔ (v ∉ bound ∧ ∃ t ∈ ts, t.OccursFree v) ∨ v ∈ rest := by
  induction ts with
  | nil => simp [freeAllOnto]
  | cons t ts ih =>
      rw [List.forall_mem_cons] at each
      simp only [freeAllOnto, each.1, ih each.2, List.mem_cons, exists_eq_or_imp, and_or_left,
        or_assoc]

theorem mem_freeOnto_iff {bound : List Variable} :
    v ∈ t.freeOnto bound rest ↔ v ∉ bound ∧ t.OccursFree v ∨ v ∈ rest := by
  induction t using Term.induction generalizing bound rest with
  | var u =>
      rw [freeOnto, occursFree_var_iff]
      by_cases inside : u ∈ bound
      · rw [if_pos (List.contains_iff_mem.2 inside)]
        refine (or_iff_right ?_).symm
        rintro ⟨outside, rfl⟩
        exact outside inside
      · rw [if_neg (mt List.contains_iff_mem.1 inside), List.mem_cons]
        refine or_congr_left (iff_and_self.2 ?_)
        rintro rfl
        exact inside
  | app role s args ih =>
      rw [freeOnto, occursFree_app_iff, mem_freeAllOnto_iff fun a ha rest => ih a ha]
  | abstraction u body ih =>
      rw [freeOnto, ih, occursFree_abstraction_iff, List.mem_cons, not_or, and_assoc,
        and_left_comm]

/-- The free variables are those that occur free. -/
theorem mem_freeVariables_iff : v ∈ t.freeVariables ↔ t.OccursFree v := by
  rw [freeVariables, List.mem_eraseDups, mem_freeOnto_iff]
  simp

instance : Decidable (t.OccursFree v) :=
  decidable_of_iff _ mem_freeVariables_iff

/-- What occurs free stands at a leaf. -/
theorem OccursFree.mentions (free : t.OccursFree v) : t.mentions v = true := by
  induction free with
  | var => exact mentions_var.2 rfl
  | arg argument _ ih => exact mentions_eq_true_iff.2 (.inr ⟨_, argument, ih⟩)
  | body _ _ ih => exact mentions_eq_true_iff.2 (.inr ⟨_, List.mem_singleton.2 rfl, ih⟩)

/-- Without quantifiers all variables occur free. -/
theorem occursFree_iff_mentions (plain : t.isQuantifierFree = true) :
    t.OccursFree v ↔ t.mentions v = true := by
  refine ⟨OccursFree.mentions, fun inside => ?_⟩
  induction t using Term.induction with
  | var u => exact occursFree_var_iff.2 (mentions_var.1 inside)
  | app role s args ih =>
      obtain ⟨-, plainArgs⟩ := isQuantifierFree_iff.1 plain
      obtain root | ⟨a, argument, inside⟩ := mentions_eq_true_iff.1 inside
      · cases root
      · exact .arg argument (ih a argument (plainArgs a argument) inside)
  | abstraction u body _ => cases (isQuantifierFree_iff.1 plain).1

end Term

theorem Subterm.mem_leafVariables_iff {s : Subterm} {v : Variable} :
    v ∈ s.leafVariables ↔ s.mentions v = true := by
  rw [leafVariables, List.mem_eraseDups, Head.mem_filterMap_asVariable]
  simp [mentions]

end SaturationCore
