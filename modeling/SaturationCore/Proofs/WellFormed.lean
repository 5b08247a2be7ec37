/-
# Well-formed terms

A tree can be assembled in any way; a term has as many arguments under a symbol as its
arity says. The spelling of such a tree is complete, so it can be laid out and taken
apart again, and where symbols also determine roles, a tree is determined by how it is
spelled.

A tree is consistent when each symbol stands in the role of its category. It is regular when,
besides, constants and quantifiers take as many arguments as their place in a tree has.
-/
import Mathlib.Data.Set.Defs
import SaturationCore.Proofs.Signature
import SaturationCore.Proofs.Spelling

namespace SaturationCore

/-- The symbols among the heads. -/
def symbolsOf (hs : List Head) : Set Symbol :=
  fun s => .symbol s ∈ hs

namespace Term

/-- There are as many arguments under each symbol as it takes, and roles and symbols
are as required. -/
inductive Built (fits : SymbolKind → Symbol → Prop) : Term → Prop where
  | var (v : Variable) : Built fits (.var v)
  | app {role : SymbolKind} {s : Symbol} {args : List Term} :
      fits role s → args.length = s.arity → (∀ a ∈ args, Built fits a) →
      Built fits (.app role s args)
  | abstraction {v : Variable} {body : Term} :
      Built fits body → Built fits (.abstraction v body)

/-- A term over a signature, each of its symbols in the role of its category. -/
def WellFormed (σ : Signature) : Term → Prop :=
  Built fun role s => role = s.kind ∧ σ.Declares s

/-- A term over some symbols, in whatever roles. -/
def Over (alphabet : Set Symbol) : Term → Prop :=
  Built fun _ s => s ∈ alphabet

section Decide

variable (fits : SymbolKind → Symbol → Prop) [∀ role s, Decidable (fits role s)]

mutual

/-- Whether the tree is built as required. -/
def checkBuilt : Term → Bool
  | .var _ => true
  | .app role s args => decide (fits role s) && args.length == s.arity && checkAllBuilt args
  | .abstraction _ body => checkBuilt body

/-- Whether several trees are built as required. -/
def checkAllBuilt : List Term → Bool
  | [] => true
  | t :: ts => checkBuilt t && checkAllBuilt ts

end

theorem checkBuilt_iff (t : Term) : checkBuilt fits t = true ↔ t.Built fits := by
  induction t using Term.induction with
  | var v => exact iff_of_true rfl (.var v)
  | app role s args ih =>
      have row (args : List Term) (each : ∀ a ∈ args, (checkBuilt fits a = true ↔ a.Built fits)) :
          checkAllBuilt fits args = true ↔ ∀ a ∈ args, a.Built fits := by
        induction args with
        | nil => exact iff_of_true rfl nofun
        | cons a args ih =>
            rw [List.forall_mem_cons] at each ⊢
            rw [checkAllBuilt, Bool.and_eq_true, each.1, ih each.2]
      rw [checkBuilt, Bool.and_eq_true, Bool.and_eq_true, decide_eq_true_eq, beq_iff_eq,
        row args ih, and_assoc]
      constructor
      · exact fun ⟨fit, len, inner⟩ => .app fit len inner
      · rintro (_ | ⟨fit, len, inner⟩)
        exact ⟨fit, len, inner⟩
  | abstraction v body ih =>
      rw [checkBuilt, ih]
      constructor
      · exact .abstraction
      · rintro (_ | _ | inner)
        exact inner

instance (t : Term) : Decidable (t.Built fits) :=
  decidable_of_iff _ (checkBuilt_iff fits t)

end Decide

instance (σ : Signature) (t : Term) : Decidable (t.WellFormed σ) :=
  inferInstanceAs (Decidable (t.Built fun role s => role = s.kind ∧ σ.Declares s))

variable {fits fits' : SymbolKind → Symbol → Prop} {a b : Term}

theorem Built.mono (weaker : ∀ role s, fits role s → fits' role s) (built : a.Built fits) :
    a.Built fits' := by
  induction built with
  | var v => exact .var v
  | app fit len _ ih => exact .app (weaker _ _ fit) len ih
  | abstraction _ ih => exact .abstraction ih

theorem WellFormed.over {σ : Signature} (wf : a.WellFormed σ) : a.Over σ.Declares :=
  wf.mono fun _ _ fit => fit.2

/-- The arguments of a tree are built as the tree is. -/
theorem Built.of_mem_args (built : a.Built fits) (argument : b ∈ a.args) : b.Built fits := by
  cases built with
  | var v => cases argument
  | app _ _ inner => exact inner b argument
  | abstraction inner => exact List.mem_singleton.1 argument ▸ inner

theorem Built.length_args (built : a.Built fits) : a.args.length = a.head.arity := by
  cases built with
  | var v => rfl
  | app _ len _ => exact len
  | abstraction _ => rfl

/-- A tree with the right numbers of arguments is spelled completely. -/
theorem Built.spells (built : a.Built fits) : Spells 1 a.spelling := by
  induction built with
  | var v => exact .cons .nil
  | @app role s args _ len _ ih =>
      have inner := Spells.flatMap ih
      rw [len] at inner
      rw [spelling_eq]
      apply Spells.cons
      rw [Nat.zero_add]
      exact inner
  | @abstraction v body _ ih =>
      have inner : Spells 1 ([body].flatMap spelling) := by
        rw [List.flatMap_singleton]
        exact ih
      rw [spelling_eq]
      apply Spells.cons
      rw [Nat.zero_add]
      exact inner

/-- Rows of equally many terms that are spelled the same agree place by place. -/
theorem eq_of_flatMap_spelling_eq {as bs : List Term} (len : as.length = bs.length)
    (builtA : ∀ a ∈ as, a.Built fits) (builtB : ∀ b ∈ bs, b.Built fits)
    (each : ∀ a ∈ as, ∀ b, b.Built fits → a.spelling = b.spelling → a = b)
    (same : as.flatMap spelling = bs.flatMap spelling) : as = bs := by
  induction as generalizing bs with
  | nil => exact (List.length_eq_zero_iff.1 len.symm).symm
  | cons a as ih =>
      cases bs with
      | nil => cases len
      | cons b bs =>
          rw [List.forall_mem_cons] at builtA builtB each
          rw [List.flatMap_cons, List.flatMap_cons] at same
          obtain ⟨first, rest⟩ := builtA.1.spells.cancel builtB.1.spells same
          rw [each.1 b builtB.1 first, ih (Nat.succ.inj len) builtA.2 builtB.2 each.2 rest]

/-- Where symbols determine roles, the spelling determines the tree. -/
theorem Built.eq_of_spelling_eq (determined : ∀ r r' s, fits r s → fits r' s → r = r')
    (builtA : a.Built fits) (builtB : b.Built fits) (same : a.spelling = b.spelling) : a = b := by
  induction builtA generalizing b with
  | var v =>
      rw [spelling_eq, spelling_eq b, List.cons.injEq] at same
      cases builtB with
      | var w => cases same.1; rfl
      | app => cases same.1
      | abstraction => cases same.1
  | @app role s args fit len builtArgs ih =>
      rw [spelling_eq, spelling_eq b, List.cons.injEq] at same
      cases builtB with
      | var w => cases same.1
      | abstraction => cases same.1
      | @app role' s' args' fit' len' builtArgs' =>
          obtain ⟨roots, rows⟩ := same
          cases roots
          have args_eq : args = args' := eq_of_flatMap_spelling_eq (len.trans len'.symm) builtArgs
            builtArgs' (fun c hc d builtD => ih c hc builtD) rows
          rw [determined role role' s fit fit', args_eq]
  | @abstraction v body builtBody ih =>
      rw [spelling_eq, spelling_eq b, List.cons.injEq] at same
      cases builtB with
      | var w => cases same.1
      | app => cases same.1
      | @abstraction v' body' builtBody' =>
          obtain ⟨roots, rows⟩ := same
          cases roots
          have bodies : body.spelling = body'.spelling := by
            simpa [args] using rows
          rw [ih builtBody' bodies]

theorem WellFormed.spelling_eq_iff {σ : Signature} (wfA : a.WellFormed σ) (wfB : b.WellFormed σ) :
    a.spelling = b.spelling ↔ a = b := by
  constructor
  · exact wfA.eq_of_spelling_eq (fun _ _ _ fit fit' => fit.1.trans fit'.1.symm) wfB
  · exact congrArg spelling

/-- The symbols in the spelling of a term are those that it is built from. -/
theorem Built.fits_of_mem (built : a.Built fits) {s : Symbol} (hs : .symbol s ∈ a.spelling) :
    ∃ role, fits role s := by
  induction built with
  | var v => cases hs with
      | tail _ hs => cases hs
  | @app role f args fit _ _ ih =>
      rw [spelling_eq, List.mem_cons, List.mem_flatMap] at hs
      obtain root | ⟨a, ha, inside⟩ := hs
      · cases root
        exact ⟨role, fit⟩
      · exact ih a ha inside
  | @abstraction v body _ ih =>
      rw [spelling_eq, List.mem_cons, List.mem_flatMap] at hs
      obtain root | ⟨a, ha, inside⟩ := hs
      · cases root
      · rw [List.mem_singleton.1 ha] at inside
        exact ih inside

theorem Over.symbolsOf_subset {alphabet : Set Symbol} (known : a.Over alphabet) :
    symbolsOf a.spelling ⊆ alphabet := by
  intro s hs
  obtain ⟨_, inside⟩ := Built.fits_of_mem known hs
  exact inside

/-! ## Consistent and regular trees -/

variable {t : Term}

/-- There are as many arguments under each symbol as it takes, and each symbol stands in the
role of its category. -/
def Consistent : Term → Prop :=
  Built fun role s => role = s.kind

/-- A consistent tree in which constants and quantifiers take as many arguments as they should. -/
def Regular : Term → Prop :=
  Built fun role s => role = s.kind ∧ s.Regular

instance (t : Term) : Decidable t.Regular :=
  inferInstanceAs (Decidable (t.Built fun role s => role = s.kind ∧ s.Regular))

theorem WellFormed.consistent {σ : Signature} (wf : t.WellFormed σ) : t.Consistent :=
  wf.mono fun _ _ fit => fit.1

theorem WellFormed.regular {σ : Signature} (regular : ∀ s, σ.Declares s → s.Regular)
    (wf : t.WellFormed σ) : t.Regular :=
  wf.mono fun _ s fit => ⟨fit.1, regular s fit.2⟩

theorem Regular.consistent (regular : t.Regular) : t.Consistent :=
  regular.mono fun _ _ fit => fit.1

theorem eq_var_of_head {v : Variable} (root : t.head = .var v) : t = .var v := by
  cases t with
  | var w =>
      cases root
      rfl
  | app role s args => cases root
  | abstraction w body => cases root

theorem exists_app_of_head {f : Symbol} (root : t.head = .symbol f) :
    ∃ role args, t = .app role f args := by
  cases t with
  | var w => cases root
  | app role s args =>
      cases root
      exact ⟨role, args, rfl⟩
  | abstraction w body => cases root

/-- A consistent tree has its role and the number of its arguments from the symbol at its root. -/
theorem Consistent.app {role : SymbolKind} {f : Symbol} {args : List Term}
    (consistent : (Term.app role f args).Consistent) :
    role = f.kind ∧ args.length = f.arity ∧ ∀ a ∈ args, a.Consistent := by
  cases consistent with
  | app fit len inner => exact ⟨fit, len, inner⟩

theorem Consistent.spelling_eq_iff {a b : Term} (left : a.Consistent) (right : b.Consistent) :
    a.spelling = b.spelling ↔ a = b := by
  constructor
  · exact left.eq_of_spelling_eq (fun _ _ _ fit fit' => fit.trans fit'.symm) right
  · exact congrArg spelling

end Term

/-- A subterm over regular symbols is that of a tree with its spelling. -/
theorem Subterm.toTerm_of_regular {s : Subterm} (regular : ∀ f ∈ symbolsOf s.spelling, f.Regular) :
    ∃ t, s.toTerm = .ok t ∧ t.spelling = s.spelling := by
  obtain ⟨ts, built, len⟩ := assembleAll_of_spells s.spells fun f hf => (regular f hf).2
  have spelled := flatMap_spelling_of_assembleAll (fun f hf => (regular f hf).1) built
  obtain ⟨t, rfl⟩ := List.length_eq_one_iff.1 len
  rw [List.flatMap_singleton] at spelled
  refine ⟨t, ?_, spelled⟩
  rw [toTerm, built]
  rfl

end SaturationCore
