/-
# Faults

Some operations have a precondition that their arguments' types do not carry:
a ledger refuses to bind a variable twice, an index refuses to change while it
is being searched. Breaking such a precondition is a fault, and a fault names
its cause. Faults that are a matter of this library's own rules have a wording;
those that are a plain limit of arithmetic or of bounds have none.
-/
import SaturationCore.Symbol

namespace SaturationCore

/-- The causes for which an operation refuses its arguments. -/
inductive Fault where
  /-- A prefix sequence goes on after its first complete term. -/
  | sequenceContinues
  /-- A prefix sequence stops before its first term is complete. -/
  | sequenceStops
  /-- Cells do not spell a term of the shape its symbols demand. -/
  | malformedTerm
  /-- An argument was asked for that the head does not take. -/
  | argumentOutOfRange (n arity : Nat)
  /-- A literal's predicate was asked for, but there is no atom. -/
  | nonAtom
  /-- A bound variable was bound again. -/
  | alreadyBound (v : Variable)
  /-- A savepoint lies beyond the bindings made so far. -/
  | futureSavepoint
  /-- An index was asked for without any bucket. -/
  | noBucket
  /-- An index was changed while it was being searched. -/
  | changedDuringRetrieval
  /-- A term with a quantifier was offered to an index. -/
  | quantifiedEntry
  /-- A term with a quantifier was put to an index as a query. -/
  | quantifiedQuery
  /-- A term without a symbol at its root has no bucket. -/
  | unbucketed
  /-- An abstraction was compared with the symbols of an index. -/
  | binderIndexed
  /-- A feature vector has not the length its index was built for. -/
  | wrongDimension
  /-- A leaf stands among the values of a feature. -/
  | leafInChain
  /-- No leaf stands below the last value of a feature vector. -/
  | innerAtEnd
  /-- An argument breaks a rule that has no wording of its own. -/
  | brokenRule
  /-- A number leaves its range. -/
  | overflow
  /-- A position leaves its sequence. -/
  | outOfBounds
deriving DecidableEq, Repr

/-- The wording of a fault, where it has one. -/
def Fault.message : Fault → Option String
  | sequenceContinues => some "prefix sequence continues past a complete term"
  | sequenceStops => some "prefix sequence ends inside a term"
  | malformedTerm => some "malformed flatterm"
  | argumentOutOfRange n arity => some s!"argument {n} out of range for arity {arity}"
  | nonAtom => some "literal over a non-atom"
  | alreadyBound v => some s!"{v.display} is already bound"
  | futureSavepoint => some "savepoint from the future"
  | noBucket => some "index needs at least one bucket"
  | changedDuringRetrieval => some "index mutated during retrieval"
  | quantifiedEntry => some "quantified terms cannot be indexed"
  | quantifiedQuery => some "quantified query term"
  | unbucketed => some "only nonvariable terms are bucketed"
  | binderIndexed => some "binders are never indexed"
  | wrongDimension => some "feature vector of the wrong dimension"
  | leafInChain => some "leaf in a feature sibling chain"
  | innerAtEnd => some "feature trie path ends in an inner node"
  | brokenRule | overflow | outOfBounds => none

/-- A computation that may refuse its arguments. -/
abbrev Checked := Except Fault

/-- Refuse with `fault` unless the condition holds. -/
def require (condition : Bool) (fault : Fault) : Checked Unit :=
  if condition then .ok () else .error fault

/-- A sequence gives a result when its first part does and the second goes on from there. -/
theorem bind_eq_ok_iff {ε α β : Type} {x : Except ε α} {f : α → Except ε β} {result : β} :
    (x >>= f) = .ok result ↔ ∃ value, x = .ok value ∧ f value = .ok result := by
  cases x with
  | error fault => exact iff_of_false (fun h => nomatch h) (fun ⟨_, h, _⟩ => nomatch h)
  | ok value =>
      constructor
      · exact fun h => ⟨value, rfl, h⟩
      · rintro ⟨_, ⟨⟩, h⟩
        exact h

theorem require_eq_ok_iff {condition : Bool} {fault : Fault} {u : Unit} :
    require condition fault = .ok u ↔ condition = true := by
  cases condition with
  | true => exact iff_of_true rfl rfl
  | false => exact iff_of_false (fun h => nomatch h) Bool.false_ne_true

end SaturationCore
