/-
# Literals

A literal is an atom with a polarity. Whether it is an equation is decided by its
predicate, so a literal read from outside over something that is no atom has no
answer to that question.

A flat literal holds its atom as a subterm.
-/
import SaturationCore.Flatterm.Subterm
import SaturationCore.Term.Display

namespace SaturationCore

/-- An atom, asserted or denied. -/
structure Literal where
  atom : Term
  polarity : Bool
deriving DecidableEq

namespace Literal

/-- The literal that asserts or denies an atom. -/
def ofAtom (atom : Term) (polarity : Bool) : Checked Literal := do
  require atom.isAtom .brokenRule
  return ⟨atom, polarity⟩

/-- The predicate of the atom, if it is one. -/
def predicate? (l : Literal) : Option Symbol :=
  match l.atom with
  | .app .predicate s _ => some s
  | _ => none

/-- The predicate of the atom, which there has to be. -/
def predicate (l : Literal) : Checked Symbol :=
  match l.predicate? with
  | some s => .ok s
  | none => .error .nonAtom

/-- The arguments of the atom. -/
def args (l : Literal) : List Term :=
  l.atom.args

/-- Whether the predicate is equality. -/
def isEquality (l : Literal) : Bool :=
  l.predicate?.any (·.isEquality)

/-- The literal of the same atom and the other polarity. -/
def complement (l : Literal) : Literal :=
  { l with polarity := !l.polarity }

/-- The written form: a denied equation has a sign of its own, any other denied
atom is marked in front. -/
def display (σ : Signature) (l : Literal) : Checked String := do
  let predicate ← l.predicate
  if l.polarity then
    l.atom.display σ
  else if predicate.isEquality then
    Term.displayBetweenOnto σ "" " != " l.args
  else
    l.atom.displayOnto σ "~"

end Literal

/-- A literal whose atom is laid out in cells. -/
structure FlatLiteral where
  atom : Subterm
  polarity : Bool

namespace FlatLiteral

/-- The literal with its atom laid out in cells. -/
def ofLiteral (l : Literal) : Checked FlatLiteral :=
  return ⟨← Subterm.ofTerm l.atom, l.polarity⟩

/-- Whether equality stands at the root of the atom. -/
def isEquality (l : FlatLiteral) : Bool :=
  match l.atom.head with
  | .symbol s => s.isEquality
  | _ => false

end FlatLiteral

end SaturationCore
