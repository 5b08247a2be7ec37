/-
# Comparing equations

Equations are compared as multisets of their sides: an asserted equation as its
two sides, a denied one as both sides taken twice. The multisets are never built.
Comparing one side of the left equation with one of the right is a question with
four answers, and a fixed tree of at most four questions leads to the outcome.

A tree is a value of its own here, so that it can be run with any way of
answering and the questions it asks can be listed.
-/
import SaturationCore.Order.Basic

namespace SaturationCore

/-- A side of an equation. -/
inductive Side where
  | first
  | second
deriving DecidableEq, Repr

/-- Questions about the sides of two equations that lead to an outcome. -/
inductive DecisionTree where
  | answer (outcome : TermOrdering)
  | ask (left right : Side) (next : TermOrdering → DecisionTree)

namespace DecisionTree

open TermOrdering

/-- Run a tree, given a way to compare a left side with a right one. -/
def run (cmp : Side → Side → Checked TermOrdering) : DecisionTree → Checked TermOrdering
  | answer outcome => .ok outcome
  | ask left right next => do run cmp (next (← cmp left right))

/-- Run a tree and list the questions it asks. -/
def runListing (cmp : Side → Side → TermOrdering) :
    DecisionTree → TermOrdering × List (Side × Side)
  | answer outcome => (outcome, [])
  | ask left right next =>
    let (outcome, asked) := runListing cmp (next (cmp left right))
    (outcome, (left, right) :: asked)

/-- The outcome is the answer to one more question. -/
def lastly (left right : Side) : DecisionTree :=
  ask left right answer

/-- Compare `s₁, s₂` with `t₁, t₂` as multisets. -/
def equations : DecisionTree :=
  ask .first .first fun
  | equivalent => lastly .second .second
  | greater => ask .first .second fun
    | equivalent => lastly .second .first
    | greater => answer greater
    | smaller => ask .second .second fun
      | equivalent | greater => answer greater
      | smaller => answer smaller
      | incomparable => ask .second .first fun
        | equivalent | smaller => answer smaller
        | _ => answer incomparable
    | incomparable => ask .second .second fun
      | equivalent => answer greater
      | greater => ask .second .first fun
        | equivalent => answer incomparable
        | _ => answer greater
      | _ => answer incomparable
  | smaller => ask .second .first fun
    | equivalent => lastly .first .second
    | smaller => answer smaller
    | greater => ask .second .second fun
      | equivalent | smaller => answer smaller
      | greater => answer greater
      | incomparable => ask .first .second fun
        | equivalent | greater => answer greater
        | _ => answer incomparable
    | incomparable => ask .second .second fun
      | equivalent => answer smaller
      | smaller => ask .first .second fun
        | equivalent => answer incomparable
        | _ => answer smaller
      | _ => answer incomparable
  | incomparable => ask .first .second fun
    | equivalent => lastly .second .first
    | greater => ask .second .first fun
      | equivalent => answer greater
      | greater => ask .second .second fun
        | equivalent => answer incomparable
        | _ => answer greater
      | _ => answer incomparable
    | smaller => ask .second .second fun
      | equivalent => answer incomparable
      | greater => ask .second .first fun
        | equivalent | smaller => answer smaller
        | greater => answer greater
        | incomparable => answer incomparable
      | smaller => answer smaller
      | incomparable => ask .second .first fun
        | equivalent | smaller => answer smaller
        | _ => answer incomparable
    | incomparable => ask .second .first fun
      | greater => ask .second .second fun
        | greater => answer greater
        | _ => answer incomparable
      | _ => answer incomparable

/-- The outcome when `t₂` alone is left to be outdone, from the answers of both
left sides against it. -/
def settleSecond : TermOrdering → TermOrdering → TermOrdering
  | equivalent, _ | greater, _ | _, equivalent | _, greater => greater
  | smaller, smaller => smaller
  | _, _ => incomparable

/-- Compare `s₁, s₁, s₂, s₂` with `t₁, t₂` as multisets. -/
def deniedWithAsserted : DecisionTree :=
  ask .first .first fun
  | equivalent => ask .first .second fun
    | equivalent | greater => answer greater
    | c => ask .second .second fun e => answer (settleSecond c e)
  | greater => ask .first .second fun
    | equivalent | greater => answer greater
    | smaller => ask .second .second fun
      | equivalent | greater => answer greater
      | smaller => answer smaller
      | incomparable => ask .second .first fun
        | smaller => answer smaller
        | _ => answer incomparable
    | incomparable => ask .second .second fun
      | equivalent | greater => answer greater
      | _ => answer incomparable
  | smaller => ask .second .first fun
    | equivalent => ask .second .second fun
      | equivalent | greater => answer greater
      | e => ask .first .second fun c => answer (settleSecond c e)
    | greater => ask .second .second fun
      | equivalent | greater => answer greater
      | smaller => answer smaller
      | incomparable => ask .first .second fun
        | equivalent | greater => answer greater
        | _ => answer incomparable
    | smaller => answer smaller
    | incomparable => ask .second .second fun
      | smaller => ask .first .second fun
        | equivalent => answer incomparable
        | _ => answer smaller
      | _ => answer incomparable
  | incomparable => ask .second .first fun
    | equivalent => ask .first .second fun
      | equivalent | greater => answer greater
      | c => ask .second .second fun e => answer (settleSecond c e)
    | greater => ask .second .second fun
      | equivalent | greater => answer greater
      | e => ask .first .second fun c => answer (settleSecond c e)
    | d => ask .first .second fun
      | smaller => ask .second .second fun e =>
        if e = equivalent then answer incomparable
        else if d = smaller ∨ e = smaller then answer smaller
        else answer incomparable
      | _ => answer incomparable

end DecisionTree

end SaturationCore
