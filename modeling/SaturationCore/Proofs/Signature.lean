/-
# What a signature declares

An identifier is a place in the table, so a signature declares at most one symbol of an
identifier. Interning takes no symbol away, and what it answers is declared from then
on. A signature that was grown from the initial one therefore still declares equality
under the identifier that equality is recognised by.
-/
import Mathlib.Tactic.IntervalCases
import SaturationCore.Signature

namespace SaturationCore

/-- A constant takes no arguments and a quantifier takes one. -/
def Symbol.Regular (s : Symbol) : Prop :=
  (s.kind = .constant → s.arity = 0) ∧ (s.kind = .quantifier → s.arity = 1)

instance (s : Symbol) : Decidable s.Regular :=
  inferInstanceAs (Decidable (_ ∧ _))

namespace Signature

variable {σ : Signature} {s t : Symbol} {name : String} {kind : SymbolKind} {arity : Nat}

/-- The table holds the symbol at the place that its identifier names. -/
def Declares (σ : Signature) (s : Symbol) : Prop :=
  σ.symbol s.id = .ok s

instance (σ : Signature) (s : Symbol) : Decidable (σ.Declares s) :=
  inferInstanceAs (Decidable (σ.symbol s.id = .ok s))

theorem declares_iff :
    σ.Declares s ↔ ∃ d, σ.declarations[s.id]? = some d ∧ d.symbol = s := by
  simp only [Declares, symbol, declaration, bind, Except.bind, pure, Except.pure]
  cases σ.declarations[s.id]? with
  | none => simp
  | some d => simp

/-- Two declared symbols with one identifier are one symbol. -/
theorem Declares.eq_of_id_eq (hs : σ.Declares s) (ht : σ.Declares t) (same : s.id = t.id) :
    s = t := by
  rw [Declares, same] at hs
  exact Except.ok.inj (hs.symm.trans ht)

/-- The symbol in every entry has the place of the entry for its identifier. -/
def Ordered (σ : Signature) : Prop :=
  ∀ (i : Nat) (d : Declaration), σ.declarations[i]? = some d → d.symbol.id = i

/-- Interning answers with a declared symbol or adds the next one to the table. -/
theorem intern_cases (σ : Signature) (name : String) (kind : SymbolKind) (arity : Nat) :
    (∃ (i : Nat) (d : Declaration), σ.declarations[i]? = some d ∧
        σ.intern name kind arity = (d.symbol, σ)) ∨
      σ.intern name kind arity = (⟨σ.declarations.size, kind, arity⟩,
        { σ with
          declarations := σ.declarations.push ⟨name, ⟨σ.declarations.size, kind, arity⟩⟩ }) := by
  cases found : σ.declarations.find? fun d =>
      d.name == name && d.symbol.kind == kind && d.symbol.arity == arity with
  | none =>
      right
      simp [intern, find?, found]
  | some d =>
      left
      obtain ⟨i, hi, entry⟩ := Array.getElem_of_mem (Array.mem_of_find?_eq_some found)
      refine ⟨i, d, ?_, ?_⟩
      · rw [Array.getElem?_eq_getElem hi, entry]
      · simp [intern, find?, found]

theorem Declares.intern (declared : σ.Declares s) : (σ.intern name kind arity).2.Declares s := by
  obtain ⟨_, _, _, same⟩ | added := σ.intern_cases name kind arity
  · rw [same]
    exact declared
  · obtain ⟨d, entry, rfl⟩ := declares_iff.1 declared
    rw [added, declares_iff]
    have inside := (Array.getElem?_eq_some_iff.1 entry).1
    exact ⟨d, by rw [Array.getElem?_push_lt inside, ← Array.getElem?_eq_getElem inside, entry], rfl⟩

theorem Ordered.intern (ordered : σ.Ordered) : (σ.intern name kind arity).2.Ordered := by
  obtain ⟨_, _, _, same⟩ | added := σ.intern_cases name kind arity
  · rw [same]
    exact ordered
  · rw [added]
    intro i d entry
    rw [Array.getElem?_push] at entry
    split at entry
    · next last =>
        cases entry
        exact last.symm
    · exact ordered i d entry

/-! ## Signatures grown from the initial one -/

/-- The signatures that declaring symbols and opening banks lead to. -/
inductive Grown : Signature → Prop where
  | initial : Grown initial
  | constant {σ : Signature} (name : String) : σ.Grown → (σ.internConstant name).2.Grown
  | function {σ : Signature} (name : String) (arity : Nat) :
      σ.Grown → (σ.internFunction name arity).2.Grown
  | predicate {σ : Signature} (name : String) (arity : Nat) :
      σ.Grown → (σ.internPredicate name arity).2.Grown
  | bank {σ τ : Signature} {b : VariableBank} :
      σ.Grown → σ.openBank = .ok (b, τ) → τ.Grown

/-- What the initial signature has and interning regular symbols keeps, however many banks are
open, every grown signature has. -/
theorem Grown.keeps {motive : Signature → Prop} (first : motive Signature.initial)
    (interned : ∀ σ name kind arity, (∀ id, Symbol.Regular ⟨id, kind, arity⟩) → motive σ →
      motive (σ.intern name kind arity).2)
    (opened : ∀ (σ : Signature) banks, motive σ → motive { σ with banks := banks })
    (grown : σ.Grown) : motive σ := by
  induction grown with
  | initial => exact first
  | constant name _ ih => exact interned _ name _ _ (fun _ => ⟨fun _ => rfl, nofun⟩) ih
  | function name arity _ ih =>
      rw [internFunction]
      split
      · exact interned _ name _ _ (fun _ => ⟨fun _ => rfl, nofun⟩) ih
      · exact interned _ name _ _ (fun _ => ⟨nofun, nofun⟩) ih
  | predicate name arity _ ih =>
      rw [internPredicate]
      split
      · exact ih
      · exact interned _ name _ _ (fun _ => ⟨nofun, nofun⟩) ih
  | bank _ made ih =>
      rw [openBank] at made
      split at made
      · cases made
        exact opened _ _ ih
      · cases made

theorem Grown.ordered (grown : σ.Grown) : σ.Ordered := by
  refine grown.keeps ?_ (fun _ _ _ _ _ => Ordered.intern) (fun _ _ ordered => ordered)
  intro i d entry
  have inside := (Array.getElem?_eq_some_iff.1 entry).1
  have few : i < 8 := inside
  interval_cases i <;> (cases entry; rfl)

theorem Grown.declares_equality (grown : σ.Grown) : σ.Declares Symbol.equality :=
  grown.keeps (motive := fun σ => σ.Declares Symbol.equality) rfl (fun _ _ _ _ _ => Declares.intern)
    (fun _ _ declared => declared)

theorem Grown.regular (grown : σ.Grown) : ∀ s, σ.Declares s → s.Regular := by
  have entries : ∀ d ∈ σ.declarations, d.symbol.Regular := by
    refine grown.keeps (motive := fun σ => ∀ d ∈ σ.declarations, d.symbol.Regular) ?_
      (fun σ name kind arity regular each => ?_) (fun _ _ each => each)
    · decide +kernel
    · obtain ⟨_, _, _, same⟩ | added := σ.intern_cases name kind arity
      · rw [same]
        exact each
      · rw [added]
        intro d hd
        obtain old | rfl := Array.mem_push.1 hd
        · exact each d old
        · exact regular _
  intro s declared
  obtain ⟨d, entry, rfl⟩ := declares_iff.1 declared
  exact entries d (Array.mem_of_getElem? entry)

end Signature

end SaturationCore
