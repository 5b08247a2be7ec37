/-
# Retrieval by undoing

A retrieval gets along with one walk along the query, one ledger, and one buffer for the heads that
are being collected. Its choice points hold no states to go back to, only marks: how many steps the
walk had taken, how many heads were in the buffer and how many bindings in the ledger. Before the
next sibling is tried, the steps and the bindings made since are undone and the buffer is cut off.
The siblings of a level are all kept, with the place of the next one to try.
-/
import SaturationCore.DiscriminationTree.Retrieval

namespace SaturationCore

/-! ## What a search undoes -/

/-- A moment in a search. -/
structure SearchMark where
  walk : WalkMark
  buffer : Nat
  ledger : Savepoint

/-- What a search changes on its way down: the walk along the query, the buffer of collected heads,
the oldest first, and the ledger. -/
structure SearchState where
  walk : InstanceWalk
  buffer : List Head
  ledger : Unifier

/-- What the descent is doing, with the collected heads in the buffer from a place on. -/
inductive SearchMode where
  | compare
  | collect (v : Variable) (first missing : Nat)

/-- Whether nodes are being compared with the query. -/
def SearchMode.isCompare : SearchMode → Bool
  | compare => true
  | collect .. => false

/-- What passing a node comes to. -/
inductive SearchStep where
  /-- The search goes on below the node. -/
  | descend (mode : SearchMode)
  /-- The node does not fit. -/
  | skip
  /-- Neither the node nor any later sibling fits. -/
  | exhausted

namespace SearchState

/-- The present moment. -/
def mark (s : SearchState) : SearchMark :=
  ⟨s.walk.mark, s.buffer.length, s.ledger.savepoint⟩

/-- Undo all that was done after a moment. -/
def backTo (s : SearchState) (m : SearchMark) : Checked SearchState := do
  return ⟨s.walk.backtrackTo m.walk, s.buffer.take m.buffer, ← s.ledger.backtrackTo m.ledger⟩

/-- Collect a head. Once the heads spell a whole term, the variable becomes it. -/
def collecting (s : SearchState) (v : Variable) (first missing : Nat) (h : Head) :
    Checked (SearchStep × SearchState) := do
  let s := { s with buffer := s.buffer ++ [h] }
  let missing := missing - 1 + h.arity
  if 0 < missing then
    return (.descend (.collect v first missing), s)
  else
    let t ← Subterm.ofSpelling (s.buffer.drop first)
    match s.ledger.unifyVariable v t with
    | some σ => return (.descend .compare, { s with ledger := σ })
    | none => return (.skip, s)

/-- Move the walk on by a head. -/
def step (s : SearchState) : SearchState :=
  { s with walk := (s.walk.next s.ledger).2 }

/-- Move the walk over the subterm that comes next. -/
def stepOver (s : SearchState) : Checked SearchState := do
  return { s with walk := ← s.step.walk.skipArguments }

/-- Compare a node's head with the next subterm of the query. -/
def comparing (s : SearchState) (h : Head) : Checked (SearchStep × SearchState) := do
  match s.walk.peek s.ledger with
  | none => return (.exhausted, s)
  | some q =>
    match h, q.head with
    | .var v, _ =>
      let s ← s.stepOver
      match s.ledger.unifyVariable v q with
      | some σ => return (.descend .compare, { s with ledger := σ })
      | none => return (.skip, s)
    | h, .var v =>
      let s ← s.stepOver
      s.collecting v s.buffer.length 1 h
    | _, .binder _ => .error .binderIndexed
    | h, other =>
      if h = other then return (.descend .compare, s.step)
      else return (if h.order other = .gt then .exhausted else .skip, s)

/-- Pass a node with a given head. -/
def through (s : SearchState) (mode : SearchMode) (h : Head) :
    Checked (SearchStep × SearchState) :=
  match mode with
  | .compare => s.comparing h
  | .collect v first missing => s.collecting v first missing h

end SearchState

/-! ## The search -/

/-- A level of the descent: its nodes, the place of the next one to try, and the moment in which
the level was reached. -/
structure SearchLevel (α : Type) where
  siblings : List (Node α)
  next : Nat
  mark : SearchMark
  mode : SearchMode

/-- The level with one more node tried. -/
def SearchLevel.tried {α : Type} (level : SearchLevel α) : SearchLevel α :=
  { level with next := level.next + 1 }

/-- How far a retriever has come. -/
inductive RetrieverPhase (α : Type) where
  | idle
  /-- The tree is searched; some objects of the node reached last are left. -/
  | tree (pending : List α)
  /-- Bare variables are tried; some objects of the one tried last are left. -/
  | sweeping (entries : List (Variable × List α)) (pending : List α)
  | done

/-- A search of an index that undoes what it did. -/
structure Retriever (α : Type) where
  isOpen : Bool
  phase : RetrieverPhase α
  query : Option Subterm
  cluster : Cluster
  start : Savepoint
  bareVariables : List (Variable × List α)
  walk : InstanceWalk
  buffer : List Head
  stack : List (SearchLevel α)

namespace Retriever

variable {α : Type}

/-- A search without a query. -/
def idle : Retriever α := ⟨false, .idle, none, .empty, ⟨0⟩, [], .idle, [], []⟩

/-- A measure of what is still to be tried. -/
def workload : List (SearchLevel α) → Nat
  | [] => 0
  | level :: outer => 2 * Node.countAll (level.siblings.drop level.next) + 1 + workload outer

theorem workload_tried {level : SearchLevel α} {n : Node α} (outer : List (SearchLevel α))
    (found : level.siblings[level.next]? = some n) :
    workload (level :: outer) = 2 * n.count + workload (level.tried :: outer) := by
  obtain ⟨inside, rfl⟩ := List.getElem?_eq_some_iff.1 found
  simp only [workload, SearchLevel.tried, List.drop_eq_getElem_cons inside, Node.countAll]
  omega

/-- Search the tree for the next node that holds objects of the cluster. -/
def advance (cluster : Cluster) (stack : List (SearchLevel α)) (s : SearchState) :
    Checked (List α × List (SearchLevel α) × SearchState) :=
  match stack with
  | [] => return ([], [], s)
  | level :: outer =>
    match _ : level.siblings[level.next]? with
    | none => advance cluster outer s
    | some (.mk h _ test leaves children) => do
      let s ← s.backTo level.mark
      if !test.passes cluster then
        advance cluster (level.tried :: outer) s
      else
        match ← s.through level.mode h with
        | (.skip, s) => advance cluster (level.tried :: outer) s
        | (.exhausted, s) => advance cluster outer s
        | (.descend mode, s) =>
          if children.isEmpty then
            require (mode.isCompare && !s.walk.hasNext) .brokenRule
            match (leaves.lookup cluster).getD [] with
            | [] => advance cluster (level.tried :: outer) s
            | objects => return (objects, level.tried :: outer, s)
          else
            advance cluster (⟨children, 0, s.mark, mode⟩ :: level.tried :: outer) s
termination_by workload stack
decreasing_by
  · rw [workload]
    omega
  all_goals rw [workload_tried outer ‹level.siblings[level.next]? = some _›]
  all_goals simp only [workload, List.drop_zero, Node.count]
  all_goals omega

/-- Try bare variables until one unifies with the query. -/
def sweep (r : Retriever α) :
    List (Variable × List α) → Unifier → Checked (Option α × Retriever α × Unifier)
  | [], σ => return (none, { r with phase := .done }, ← σ.backtrackTo r.start)
  | (v, objects) :: rest, σ => do
    let σ ← σ.backtrackTo r.start
    match r.query.bind (Unifier.unifyVariable σ v), objects with
    | some σ, object :: pending =>
      return (some object, { r with phase := .sweeping rest pending }, σ)
    | some σ, [] => sweep r rest σ
    | none, _ => sweep r rest σ

/-- The next object whose term unifies with the query, with the unifier in the ledger. -/
def next (r : Retriever α) (σ : Unifier) : Checked (Option α × Retriever α × Unifier) :=
  match r.phase with
  | .idle | .done => return (none, r, σ)
  | .tree (object :: pending) => return (some object, { r with phase := .tree pending }, σ)
  | .tree [] => do
    let (objects, stack, s) ← advance r.cluster r.stack ⟨r.walk, r.buffer, σ⟩
    let r := { r with stack, walk := s.walk, buffer := s.buffer }
    match objects with
    | object :: pending => return (some object, { r with phase := .tree pending }, s.ledger)
    | [] => sweep r r.bareVariables (← s.ledger.backtrackTo r.start)
  | .sweeping rest (object :: pending) =>
    return (some object, { r with phase := .sweeping rest pending }, σ)
  | .sweeping rest [] => sweep r rest σ

/-- Let the index go. -/
def release (r : Retriever α) (ix : Index α) : Index α :=
  if r.isOpen then { ix with openRetrievals := ix.openRetrievals - 1 } else ix

/-- Undo the bindings of the query and let the index go. -/
def finish (r : Retriever α) (ix : Index α) (σ : Unifier) :
    Checked (Retriever α × Index α × Unifier) := do
  let σ ← match r.phase with
    | .idle => pure σ
    | _ => σ.backtrackTo r.start
  return (idle, r.release ix, σ)

/-- A search that was just put to an index, to go on below some roots. -/
def asking (ix : Index α) (query : Subterm) (cluster : Cluster) (σ : Unifier)
    (roots : List (Node α)) : Retriever α where
  isOpen := true
  phase := .tree []
  query := some (σ.deref query)
  cluster
  start := σ.savepoint
  bareVariables := (ix.bareVariables.lookup cluster).getD []
  walk := .start query
  buffer := []
  stack := [⟨roots, 0, SearchState.mark ⟨.start query, [], σ⟩, .compare⟩]

/-- Put a query to an index, giving up any query before it. -/
def reset (r : Retriever α) (ix : Index α) (query : Subterm) (cluster : Cluster) (σ : Unifier) :
    Checked (Retriever α × Index α × Unifier) := do
  require query.isQuantifierFree .quantifiedQuery
  let (_, ix, σ) ← if r.isOpen then r.finish ix σ else pure (r, ix, σ)
  let roots ← Retrieval.rootsBelow ix cluster (σ.deref query).head
  return (asking ix query cluster σ roots, { ix with openRetrievals := ix.openRetrievals + 1 }, σ)

end Retriever

end SaturationCore
