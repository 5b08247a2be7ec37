/-
# Writing terms

Terms are written in the usual mathematical manner: `f(g(a),X0)`, equations and
binary connectives between their arguments, `! [X0] : P(X0)` for a quantified
formula. A nullary predicate keeps its parentheses. Writing needs a signature
for the names, and refuses symbols that the signature does not have and
applications that lack an argument their layout has a place for.
-/
import SaturationCore.Signature
import SaturationCore.Term.Basic

namespace SaturationCore

namespace Term

mutual

/-- The written form of a term behind `written`. -/
def displayOnto (σ : Signature) (written : String) : Term → Checked String
  | .var v => return written ++ v.display
  | .abstraction v body => displayOnto σ (written ++ "^[" ++ v.display ++ "] : ") body
  | .app .constant s _ => return written ++ (← σ.resolve s.id)
  | .app .function s args =>
    return (← displayListOnto σ (written ++ (← σ.resolve s.id) ++ "(") "" args) ++ ")"
  | .app .predicate s args => do
    if s.isEquality then displayBetweenOnto σ written " = " args
    else return (← displayListOnto σ (written ++ (← σ.resolve s.id) ++ "(") "" args) ++ ")"
  | .app .connective s args => displayJoinedOnto σ written s args
  | .app .quantifier s args => displayScopeOnto σ written s args

/-- The written forms of a sequence of terms, each behind a separator that is a
comma from the second on. -/
def displayListOnto (σ : Signature) (written separator : String) : List Term → Checked String
  | [] => return written
  | t :: ts => do displayListOnto σ (← displayOnto σ (written ++ separator) t) "," ts

/-- The first two of the arguments with a sign between them. -/
def displayBetweenOnto (σ : Signature) (written sign : String) : List Term → Checked String
  | a :: b :: _ => do displayOnto σ ((← displayOnto σ written a) ++ sign) b
  | _ => .error .outOfBounds

/-- A connective in front of its only argument or between its first two. -/
def displayJoinedOnto (σ : Signature) (written : String) (s : Symbol) :
    List Term → Checked String
  | [] => .error .outOfBounds
  | [a] => do displayOnto σ (written ++ (← σ.resolve s.id)) a
  | a :: b :: _ => do
    let left ← displayOnto σ (written ++ "(") a
    return (← displayOnto σ (left ++ " " ++ (← σ.resolve s.id) ++ " ") b) ++ ")"

/-- A quantifier with its variable in brackets, or in front of any other body. -/
def displayScopeOnto (σ : Signature) (written : String) (s : Symbol) :
    List Term → Checked String
  | [] => .error .outOfBounds
  | .abstraction v body :: _ => do
    displayOnto σ (written ++ (← σ.resolve s.id) ++ " [" ++ v.display ++ "] : ") body
  | other :: _ => do displayOnto σ (written ++ (← σ.resolve s.id) ++ " ") other

end

/-- The written form of a term. -/
def display (σ : Signature) (t : Term) : Checked String :=
  displayOnto σ "" t

end Term

end SaturationCore
