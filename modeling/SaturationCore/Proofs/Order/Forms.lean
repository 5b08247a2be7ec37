/-
# The ordering on other forms of terms

Terms are compared as trees, as subterms, and in both forms as they read through a one-level
ledger. All these comparisons read nothing but spellings, so a subterm compares as the tree that is
rebuilt from it, wherever it stands in its flatterm, and what reads through a ledger compares as
its instance. Reading never looks into an instance, so this holds for cyclic bindings too.

A flat literal compares as the literal it stands for. Equality at the root of an atom tells
equations apart in both forms, and the sides that are found behind the root are those of the tree.
-/
import SaturationCore.Proofs.Ledger.Splice
import SaturationCore.Proofs.Matching.Layout
import SaturationCore.Proofs.Order.Literal

namespace SaturationCore

/-! ## Instances -/

namespace TreeMatcher

variable {σ : TreeMatcher} {a b : Term}

/-- Trees read the same just when replacing makes them the same. -/
theorem equal_iff (instances : ∀ v t, σ.get? v = some t → t.Consistent) (left : a.Consistent)
    (right : b.Consistent) : σ.equal a b = true ↔ σ.replace a = σ.replace b := by
  have instance_consistent {t : Term} (consistent : t.Consistent) : (σ.replace t).Consistent :=
    built_replace instances consistent
  rw [equal, beq_iff_eq, instanceSpelling_eq_replace, instanceSpelling_eq_replace]
  exact (instance_consistent left).spelling_eq_iff (instance_consistent right)

end TreeMatcher

namespace Matcher

variable {φ : Matcher} {σ : TreeMatcher} {s t : Subterm} {a b : Term}

theorem SameBindings.supplies (same : φ.SameBindings σ) (here : s.LaysOut a) :
    Supplies φ.nextHead (start s) (σ.replace a).spelling := by
  rw [← same.instanceSpelling_eq here]
  exact φ.supplies_instanceSpelling s

theorem SameBindings.apply_eq (same : φ.SameBindings σ) (here : s.LaysOut a) :
    φ.apply s = σ.apply a := by
  rw [apply, TreeMatcher.apply, same.instanceSpelling_eq here,
    TreeMatcher.instanceSpelling_eq_replace]

theorem SameBindings.equal_eq (same : φ.SameBindings σ) (left : s.LaysOut a)
    (right : t.LaysOut b) : φ.equal s t = σ.equal a b := by
  rw [equal, TreeMatcher.equal, same.instanceSpelling_eq left, same.instanceSpelling_eq right,
    TreeMatcher.instanceSpelling_eq_replace, TreeMatcher.instanceSpelling_eq_replace]

end Matcher

namespace KnuthBendix

variable {k : KnuthBendix}

end KnuthBendix

/-! ## Subterms and flat literals -/

/-- The flat literal has the atom of the literal, laid out in cells, and its polarity. -/
def FlatLiteral.LaysOut (x : FlatLiteral) (l : Literal) : Prop :=
  x.atom.LaysOut l.atom ∧ x.polarity = l.polarity

/-- The flat literal has the polarity of the literal, and its atom is rebuilt as that of the
literal. -/
def FlatLiteral.Rebuilds (x : FlatLiteral) (l : Literal) : Prop :=
  x.atom.toTerm = .ok l.atom ∧ x.polarity = l.polarity

namespace FlatLiteral

variable {x : FlatLiteral} {sig : Signature}

theorem LaysOut.of_rebuilds {l : Literal} (made : x.Rebuilds l) (wf : l.WellFormed sig) :
    x.LaysOut l :=
  ⟨Subterm.laysOut_of_toTerm made.1 wf.atom.consistent, made.2⟩

theorem LaysOut.isEquality_eq {f : Symbol} {args : List Term} {p : Bool}
    (laid : x.LaysOut ⟨.app .predicate f args, p⟩) : x.isEquality = f.isEquality := by
  rw [isEquality, laid.1.root.1]
  rfl

end FlatLiteral

/-- Behind the root of a subterm with two arguments stand both of them. -/
theorem Subterm.LaysOut.exists_pair {s : Subterm} {t a b : Term} (laid : s.LaysOut t)
    (two : t.args = [a, b]) :
    ∃ left right, s.arg 0 = .ok left ∧ s.arg 1 = .ok right ∧ left.LaysOut a ∧
      right.LaysOut b := by
  have args := laid.args
  rw [two] at args
  generalize found : s.args = inner at args
  cases args with
  | @cons left _ _ _ first rest =>
      cases rest with
      | @cons right _ _ _ second others =>
          cases others
          refine ⟨left, right, ?_, ?_, first, second⟩
          · rw [arg, found]
            rfl
          · rw [arg, found]
            rfl

theorem Side.forall_of {α β : Type} {related : α → β → Prop} {xs : α × α} {ys : β × β}
    (first : related xs.1 ys.1) (second : related xs.2 ys.2) (i : Side) :
    related (i.of xs) (i.of ys) := by
  cases i with
  | first => exact first
  | second => exact second

/-- Comparing equations only asks for comparisons between their sides. -/
theorem compareEquations_congr {α β : Type} {cmp : α → α → Checked TermOrdering}
    {cmp' : β → β → Checked TermOrdering} {ls rs : α × α} {ls' rs' : β × β} (p q : Bool)
    (forth : ∀ i j : Side, cmp (i.of ls) (j.of rs) = cmp' (i.of ls') (j.of rs'))
    (back : ∀ i j : Side, cmp (i.of rs) (j.of ls) = cmp' (i.of rs') (j.of ls')) :
    compareEquations cmp p ls q rs = compareEquations cmp' p ls' q rs' := by
  cases p <;> cases q <;> simp only [compareEquations, forth, back]

namespace KnuthBendix

variable {k : KnuthBendix} {sig : Signature} {x y : FlatLiteral} {l m : Literal}

theorem compareFlat_eq {s t : Subterm} {a b : Term} (left : s.LaysOut a) (right : t.LaysOut b) :
    k.compareFlat s t = k.compare a b := by
  rw [compareFlat, left.1, right.1, compare]

theorem compareEquations_compareFlat {left right left' right' : Subterm} {s t s' t' : Term}
    (p q : Bool) (laidS : left.LaysOut s) (laidT : right.LaysOut t) (laidS' : left'.LaysOut s')
    (laidT' : right'.LaysOut t') :
    compareEquations k.compareFlat p (left, right) q (left', right') =
      compareEquations k.compare p (s, t) q (s', t') := by
  have side (i : Side) : (i.of (left, right)).LaysOut (i.of (s, t)) := i.forall_of laidS laidT
  have side' (i : Side) : (i.of (left', right')).LaysOut (i.of (s', t')) :=
    i.forall_of laidS' laidT'
  exact compareEquations_congr p q (fun i j => compareFlat_eq (side i) (side' j))
    fun i j => compareFlat_eq (side' i) (side j)

/-- Flat literals compare as the literals they stand for. -/
theorem compareFlatLiterals_eq (shapeL : l.Shape sig) (shapeM : m.Shape sig) (laid : x.LaysOut l)
    (laid' : y.LaysOut m) : k.compareFlatLiterals x y = k.compareLiterals l m := by
  have root : Symbol.equality.isEquality = true := rfl
  cases shapeL with
  | @equation s t p =>
      have equation : x.isEquality = true := laid.isEquality_eq
      cases shapeM with
      | @equation s' t' q =>
          have equation' : y.isEquality = true := laid'.isEquality_eq
          obtain ⟨left, right, arg, arg', first, second⟩ := laid.1.exists_pair rfl
          obtain ⟨left', right', arg'', arg''', first', second'⟩ := laid'.1.exists_pair rfl
          rw [compareFlatLiterals, equation, equation', arg, arg', arg'', arg''', laid.2, laid'.2]
          exact compareEquations_compareFlat p q first second first' second'
      | @other g args' q other' =>
          have equation' : y.isEquality = false := laid'.isEquality_eq.trans other'
          rw [compareFlatLiterals, compareLiterals, equation, equation']
          simp only [Literal.predicate, Literal.predicate?, Term.equality, bind, Except.bind, root,
            other']
  | @other f args p other =>
      have equation : x.isEquality = false := laid.isEquality_eq.trans other
      cases shapeM with
      | @equation s' t' q =>
          have equation' : y.isEquality = true := laid'.isEquality_eq
          rw [compareFlatLiterals, compareLiterals, equation, equation']
          simp only [Literal.predicate, Literal.predicate?, Term.equality, bind, Except.bind, root,
            other]
      | @other g args' q other' =>
          have equation' : y.isEquality = false := laid'.isEquality_eq.trans other'
          rw [compareFlatLiterals, compareLiterals, equation, equation', laid.2, laid'.2,
            compareFlat_eq laid.1 laid'.1]
          simp only [Literal.predicate, Literal.predicate?, bind, Except.bind, other, other']

/-- Subterms over the symbols of a signature, at whatever positions of whatever flatterms, compare
as the trees rebuilt from them, and flat literals as the literals they stand for. Both orderings
answer unless a weight leaves its range. -/
theorem compareFlat_eq_compare (k : KnuthBendix) (grown : sig.Grown) :
    (∀ (s t : Subterm) (a b : Term), s.toTerm = .ok a → t.toTerm = .ok b → a.WellFormed sig →
      b.WellFormed sig → k.compareFlat s t = k.compare a b ∧
        (k.compare a b ≠ .error .overflow → ∃ o, k.compare a b = .ok o)) ∧
    ∀ (x y : FlatLiteral) (l m : Literal), x.Rebuilds l → y.Rebuilds m → l.WellFormed sig →
      m.WellFormed sig → k.compareFlatLiterals x y = k.compareLiterals l m ∧
        (k.compareLiterals l m ≠ .error .overflow → ∃ o, k.compareLiterals l m = .ok o) := by
  constructor
  · intro s t a b madeA madeB wfA wfB
    have laid := Subterm.laysOut_of_toTerm madeA wfA.consistent
    have laid' := Subterm.laysOut_of_toTerm madeB wfB.consistent
    exact ⟨compareFlat_eq laid laid', fun fits => ⟨_, (k.yields_compare a b).eq_ok fits⟩⟩
  · intro x y l m madeL madeM wfL wfM
    have shapeL := wfL.shape grown
    have shapeM := wfM.shape grown
    have laid := FlatLiteral.LaysOut.of_rebuilds madeL wfL
    have laid' := FlatLiteral.LaysOut.of_rebuilds madeM wfM
    exact ⟨compareFlatLiterals_eq shapeL shapeM laid laid',
      fun fits => ⟨_, (yields_compareLiterals shapeL shapeM).eq_ok fits⟩⟩

/-- Two equations inside a conjunction, one with a quantified side, as terms and as literals of
different polarity. -/
theorem compareFlat_eq_compare_inside :
    let sig := (Signature.initial.internFunction "f" 1).2
    let f (t : Term) : Term := .app .function (Signature.initial.internFunction "f" 1).1 [t]
    let x : Term := .var ⟨0, 0⟩
    let a : Term := .equality (.quantified .universal ⟨0, 0⟩ (f x)) x
    let b : Term := .equality x (f x)
    a.WellFormed sig ∧ b.WellFormed sig ∧
      ∃ u s t : Subterm, Subterm.ofTerm (.app .connective Connective.and.symbol [a, b]) = .ok u ∧
        u.arg 0 = .ok s ∧ u.arg 1 = .ok t ∧ s.toTerm = .ok a ∧ t.toTerm = .ok b ∧
        standard.compareFlat s t = .ok .greater ∧
        standard.compareFlatLiterals ⟨s, false⟩ ⟨t, true⟩ = .ok .greater ∧
        standard.compareFlatLiterals ⟨t, true⟩ ⟨s, false⟩ = .ok .smaller := by
  intro sig f x a b
  have grown : sig.Grown := .function "f" 1 .initial
  have wfA : a.WellFormed sig := by decide +kernel
  have wfB : b.WellFormed sig := by decide +kernel
  have wfU : (Term.app .connective Connective.and.symbol [a, b]).WellFormed sig := by
    decide +kernel
  obtain ⟨u, made, laid⟩ := Subterm.exists_ofTerm_eq wfU.consistent
  obtain ⟨s, t, arg, arg', first, second⟩ := laid.exists_pair rfl
  have madeA := Subterm.toTerm_of_spelling_eq (wfA.regular grown.regular) first.1
  have madeB := Subterm.toTerm_of_spelling_eq (wfB.regular grown.regular) second.1
  obtain ⟨terms, literals⟩ := compareFlat_eq_compare standard grown
  have compared := (terms s t a b madeA madeB wfA wfB).1
  have wfL : Literal.WellFormed sig ⟨a, false⟩ := ⟨rfl, wfA⟩
  have wfM : Literal.WellFormed sig ⟨b, true⟩ := ⟨rfl, wfB⟩
  have forth := (literals ⟨s, false⟩ ⟨t, true⟩ _ _ ⟨madeA, rfl⟩ ⟨madeB, rfl⟩ wfL wfM).1
  have back := (literals ⟨t, true⟩ ⟨s, false⟩ _ _ ⟨madeB, rfl⟩ ⟨madeA, rfl⟩ wfM wfL).1
  have above : standard.compare a b = .ok .greater := by decide +kernel
  have above' : standard.compareLiterals ⟨a, false⟩ ⟨b, true⟩ = .ok .greater := by decide +kernel
  have under : standard.compareLiterals ⟨b, true⟩ ⟨a, false⟩ = .ok .smaller := by decide +kernel
  exact ⟨wfA, wfB, u, s, t, made, arg, arg', madeA, madeB, compared.trans above,
    forth.trans above', back.trans under⟩

end KnuthBendix

end SaturationCore
