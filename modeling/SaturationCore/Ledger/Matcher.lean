/-
# Reading a ledger one level deep

The ledgers of matching are read one level deep: a bound variable stands for its
instance, and the instance is taken as it is. Bindings such as `X` to `f(X)` are
harmless here. One ledger holds subterms and reads cells, the other holds trees
and reads trees.
-/
import SaturationCore.Flatterm.Subterm
import SaturationCore.Ledger.Basic

namespace SaturationCore

/-- A ledger of subterms, read one level deep. -/
abbrev Matcher := Ledger Subterm

namespace Matcher

/-- The instance of a bound variable, or else the subterm itself. -/
def deref (σ : Matcher) (s : Subterm) : Subterm :=
  (s.asVariable.bind σ.get?).getD s

/-- What a head stands for. -/
def expand (σ : Matcher) (h : Head) : List Head :=
  match h.asVariable.bind σ.get? with
  | some t => t.spelling
  | none => [h]

/-- The heads of the subterm as it reads. -/
def instanceSpelling (σ : Matcher) (s : Subterm) : List Head :=
  s.spelling.flatMap σ.expand

/-- Whether two subterms read the same. -/
def equal (σ : Matcher) (a b : Subterm) : Bool :=
  σ.instanceSpelling a == σ.instanceSpelling b

/-- The tree that the subterm reads as. -/
def apply (σ : Matcher) (s : Subterm) : Checked Term := do
  (← Subterm.ofSpelling (σ.instanceSpelling s)).toTerm

end Matcher

/-- A ledger of trees, read one level deep. -/
abbrev TreeMatcher := Ledger Term

namespace TreeMatcher

/-- The instance of a bound variable, or else the tree itself. -/
def deref (σ : TreeMatcher) (t : Term) : Term :=
  (t.asVariable.bind σ.get?).getD t

mutual

/-- The heads of the tree as it reads, in front of `rest`. -/
def spellInstanceOnto (σ : TreeMatcher) : Term → List Head → List Head
  | .var v, rest =>
    match σ.get? v with
    | some t => t.spellOnto rest
    | none => .var v :: rest
  | .app _ s args, rest => .symbol s :: spellInstancesOnto σ args rest
  | .abstraction v body, rest => .binder v :: spellInstanceOnto σ body rest

/-- The heads of a sequence of trees as they read, in front of `rest`. -/
def spellInstancesOnto (σ : TreeMatcher) : List Term → List Head → List Head
  | [], rest => rest
  | t :: ts, rest => spellInstanceOnto σ t (spellInstancesOnto σ ts rest)

end

/-- The heads of the tree as it reads. -/
def instanceSpelling (σ : TreeMatcher) (t : Term) : List Head :=
  spellInstanceOnto σ t []

/-- Whether two trees read the same. -/
def equal (σ : TreeMatcher) (a b : Term) : Bool :=
  σ.instanceSpelling a == σ.instanceSpelling b

/-- The tree that the tree reads as. -/
def apply (σ : TreeMatcher) (t : Term) : Checked Term := do
  (← Subterm.ofSpelling (σ.instanceSpelling t)).toTerm

end TreeMatcher

end SaturationCore
