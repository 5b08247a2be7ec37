/-
# Retrieval by unification

A retrieval finds the objects of an index whose terms unify with a query under the
query's cluster, one at a time, leaving the unifier in the ledger. It descends the
tree depth first and keeps a choice point for every level, with the siblings still
to be tried and with where the walk along the query and the ledger stood.

A node is passed in one of three ways. An indexed variable takes the whole query
subterm that comes next. A symbol equal to the next one of the query moves both on.
And a symbol met by an unbound variable of the query begins a path: the descent
collects heads until they spell a whole term, which the variable then becomes.

When the tree is exhausted, the bare variables stored under the query's cluster
are unified with the query as a whole.

A choice point holds the walk and the collected heads as they were. `Retriever` is the same search
with one walk and one buffer for all levels, in which they are undone.
-/
import SaturationCore.DiscriminationTree.Index
import SaturationCore.Unification
import SaturationCore.Walk.Instance

namespace SaturationCore

/-- What the descent is doing. -/
inductive Descent where
  /-- Nodes are compared with the query. -/
  | compare
  /-- Nodes spell the term that a variable of the query becomes. The heads so far
  are kept newest first, with the number of subterms still missing. -/
  | collect (v : Variable) (heads : List Head) (missing : Nat)

namespace Descent

/-- Whether nodes are being compared with the query. -/
def isCompare : Descent → Bool
  | compare => true
  | collect .. => false

end Descent

/-- What passing a node comes to. -/
inductive Passage where
  /-- The search goes on below the node. -/
  | descend (frames : List Frame) (descent : Descent) (σ : Unifier)
  /-- The node does not fit. -/
  | skip
  /-- Neither the node nor any later sibling fits. -/
  | exhausted

namespace Passage

/-- Collect a head. Once the heads spell a whole term, the variable becomes it. -/
def collecting (σ : Unifier) (frames : List Frame) (v : Variable) (heads : List Head)
    (missing : Nat) (h : Head) : Checked Passage := do
  let heads := h :: heads
  let missing := missing - 1 + h.arity
  if 0 < missing then
    return .descend frames (.collect v heads missing) σ
  else
    let t ← Subterm.ofSpelling heads.reverse
    match σ.unifyVariable v t with
    | some σ => return .descend frames .compare σ
    | none => return .skip

/-- Move a walk over the subterm that comes next. -/
def stepOver (σ : Unifier) (frames : List Frame) : Checked (List Frame) :=
  match Frames.next? σ frames with
  | none => return frames
  | some (_, frames, _) => return (← Frames.skipArguments frames).1

/-- Compare a node's head with the next subterm of the query. Siblings behind a
greater symbol are greater still. -/
def comparing (σ : Unifier) (frames : List Frame) (h : Head) : Checked Passage := do
  match Frames.peek σ frames with
  | none => return .exhausted
  | some q =>
    match h, q.head with
    | .var v, _ =>
      let frames ← stepOver σ frames
      match σ.unifyVariable v q with
      | some σ => return .descend frames .compare σ
      | none => return .skip
    | h, .var v => collecting σ (← stepOver σ frames) v [] 1 h
    | _, .binder _ => .error .binderIndexed
    | h, other =>
      if h = other then
        match Frames.next? σ frames with
        | none => return .exhausted
        | some (_, frames, _) => return .descend frames .compare σ
      else return if h.order other = .gt then .exhausted else .skip

/-- Pass a node with a given head. -/
def through (σ : Unifier) (frames : List Frame) (descent : Descent) (h : Head) :
    Checked Passage :=
  match descent with
  | .compare => comparing σ frames h
  | .collect v heads missing => collecting σ frames v heads missing h

end Passage

/-- A level of the descent: the siblings still to be tried, and where the walk and
the ledger stood. -/
structure ChoicePoint (α : Type) where
  siblings : List (Node α)
  frames : List Frame
  savepoint : Savepoint
  descent : Descent

/-- How far a retrieval has come. -/
inductive Phase (α : Type) where
  /-- No query was given. -/
  | idle
  /-- The tree is searched; some objects of the node reached last are left. -/
  | tree (stack : List (ChoicePoint α)) (pending : List α)
  /-- Bare variables are tried; some objects of the one tried last are left. -/
  | sweeping (entries : List (Variable × List α)) (pending : List α)
  /-- Everything was found. -/
  | done

/-- A search of an index. -/
structure Retrieval (α : Type) where
  isOpen : Bool
  phase : Phase α
  query : Option Subterm
  cluster : Cluster
  start : Savepoint
  bareVariables : List (Variable × List α)

namespace Retrieval

variable {α : Type}

/-- A search without a query. -/
def idle : Retrieval α := ⟨false, .idle, none, .empty, ⟨0⟩, []⟩

/-- A measure of what is still to be tried. Entering a node trades it for the level
below, so nodes count more than levels. -/
def workload : List (ChoicePoint α) → Nat
  | [] => 0
  | cp :: outer => 2 * Node.countAll cp.siblings + 1 + workload outer

/-- Search the tree for the next node that holds objects of the cluster. -/
def advance (cluster : Cluster) (stack : List (ChoicePoint α)) (σ : Unifier) :
    Checked (List α × List (ChoicePoint α) × Unifier) :=
  match stack with
  | [] => return ([], [], σ)
  | ⟨[], _, _, _⟩ :: outer => advance cluster outer σ
  | ⟨.mk h _ test leaves children :: later, frames, savepoint, descent⟩ :: outer => do
    let σ ← σ.backtrackTo savepoint
    if !test.passes cluster then
      advance cluster (⟨later, frames, savepoint, descent⟩ :: outer) σ
    else
      match ← Passage.through σ frames descent h with
      | .skip => advance cluster (⟨later, frames, savepoint, descent⟩ :: outer) σ
      | .exhausted => advance cluster outer σ
      | .descend inner innerDescent σ =>
        if children.isEmpty then
          require (innerDescent.isCompare && !Frames.hasNext inner) .brokenRule
          match (leaves.lookup cluster).getD [] with
          | [] => advance cluster (⟨later, frames, savepoint, descent⟩ :: outer) σ
          | objects => return (objects, ⟨later, frames, savepoint, descent⟩ :: outer, σ)
        else
          advance cluster
            (⟨children, inner, σ.savepoint, innerDescent⟩ ::
              ⟨later, frames, savepoint, descent⟩ :: outer) σ
termination_by workload stack
decreasing_by
  all_goals simp only [workload, Node.countAll, Node.count]
  all_goals omega

/-- Try bare variables until one unifies with the query. -/
def sweep (r : Retrieval α) :
    List (Variable × List α) → Unifier → Checked (Option α × Retrieval α × Unifier)
  | [], σ => return (none, { r with phase := .done }, ← σ.backtrackTo r.start)
  | (v, objects) :: rest, σ => do
    let σ ← σ.backtrackTo r.start
    match r.query.bind (Unifier.unifyVariable σ v), objects with
    | some σ, object :: pending =>
      return (some object, { r with phase := .sweeping rest pending }, σ)
    | some σ, [] => sweep r rest σ
    | none, _ => sweep r rest σ

/-- The next object whose term unifies with the query, with the unifier in the
ledger; after the last one the ledger is as it was before the query. -/
def next (r : Retrieval α) (σ : Unifier) : Checked (Option α × Retrieval α × Unifier) :=
  match r.phase with
  | .idle | .done => return (none, r, σ)
  | .tree stack (object :: pending) =>
    return (some object, { r with phase := .tree stack pending }, σ)
  | .tree stack [] => do
    match ← advance r.cluster stack σ with
    | (object :: pending, stack, σ) =>
      return (some object, { r with phase := .tree stack pending }, σ)
    | ([], _, σ) => sweep r r.bareVariables (← σ.backtrackTo r.start)
  | .sweeping rest (object :: pending) =>
    return (some object, { r with phase := .sweeping rest pending }, σ)
  | .sweeping rest [] => sweep r rest σ

/-- Let the index go. -/
def release (r : Retrieval α) (ix : Index α) : Index α :=
  if r.isOpen then { ix with openRetrievals := ix.openRetrievals - 1 } else ix

/-- Undo the bindings of the query and let the index go. -/
def finish (r : Retrieval α) (ix : Index α) (σ : Unifier) :
    Checked (Retrieval α × Index α × Unifier) := do
  let σ ← match r.phase with
    | .idle => pure σ
    | _ => σ.backtrackTo r.start
  return (idle, r.release ix, σ)

/-- The choice point at the roots of trees. -/
def atRoots (query : Subterm) (σ : Unifier) (roots : List (Node α)) : ChoicePoint α :=
  ⟨roots, [.ofSubterm query], σ.savepoint, .compare⟩

/-- A search that was just put to an index, to go on below some roots. -/
def asking (ix : Index α) (query : Subterm) (cluster : Cluster) (σ : Unifier)
    (roots : List (Node α)) : Retrieval α where
  isOpen := true
  phase := .tree [atRoots query σ roots] []
  query := some (σ.deref query)
  cluster
  start := σ.savepoint
  bareVariables := (ix.bareVariables.lookup cluster).getD []

/-- The roots below which a query may find something that reads with a given head: those
of all trees for a variable, and else those of the bucket. -/
def rootsBelow (ix : Index α) (cluster : Cluster) : Head → Checked (List (Node α))
  | .var _ => return ix.buckets.toList.flatMap (·.rootsFor cluster)
  | h => return (ix.bucket (← ix.bucketOf h)).rootsFor cluster

/-- Put a query to an index, giving up any query before it. The index is held open
from now on. -/
def reset (r : Retrieval α) (ix : Index α) (query : Subterm) (cluster : Cluster)
    (σ : Unifier) : Checked (Retrieval α × Index α × Unifier) := do
  require query.isQuantifierFree .quantifiedQuery
  let (_, ix, σ) ← if r.isOpen then r.finish ix σ else pure (r, ix, σ)
  let roots ← rootsBelow ix cluster (σ.deref query).head
  return (asking ix query cluster σ roots, { ix with openRetrievals := ix.openRetrievals + 1 }, σ)

/-- Search until nothing is left, and list every object found with the ledger that
it was found under. At most `limit` objects are taken. -/
def drain (r : Retrieval α) (σ : Unifier) :
    (limit : Nat) → Checked (List (α × Unifier) × Retrieval α × Unifier)
  | 0 => return ([], r, σ)
  | limit + 1 => do
    match ← r.next σ with
    | (none, r, σ) => return ([], r, σ)
    | (some object, r, σ) =>
      let (found, r, last) ← drain r σ limit
      return ((object, σ) :: found, r, last)

end Retrieval

namespace Index

variable {α : Type}

/-- All objects whose terms unify with a query under its cluster, each with the
ledger that unifies them. No more are found than are stored. -/
def search (ix : Index α) (query : Subterm) (cluster : Cluster) (σ : Unifier) :
    Checked (List (α × Unifier) × Unifier) := do
  let (r, ix, σ) ← Retrieval.idle.reset ix query cluster σ
  let (found, r, σ) ← r.drain σ (ix.size + 1)
  let (_, _, σ) ← r.finish ix σ
  return (found, σ)

end Index

end SaturationCore
