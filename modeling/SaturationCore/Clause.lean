/-
# Clauses

A clause is a disjunction of literals, kept in the order in which they were
given. The empty clause is false.
-/
import SaturationCore.Literal

namespace SaturationCore

/-- A disjunction of literals. -/
structure Clause where
  literals : List Literal
deriving DecidableEq

namespace Clause

/-- How many literals the clause has. -/
def size (c : Clause) : Nat :=
  c.literals.length

/-- The free variables of the literals, each once and in order of first
occurrence. -/
def freeVariables (c : Clause) : List Variable :=
  (c.literals.flatMap (·.atom.freeVariables)).eraseDups

/-- The written form, with a sign of its own for the empty clause. -/
def display (σ : Signature) (c : Clause) : Checked String :=
  match c.literals with
  | [] => return "$false"
  | literals => return " | ".intercalate (← literals.mapM (·.display σ))

end Clause

end SaturationCore
