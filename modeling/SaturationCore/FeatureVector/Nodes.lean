/-
# Tries of linked nodes

The nodes of a trie of vectors lie in one array and refer to each other by their places in it. The
values at one position of the vectors that have the same beginning form a chain: every node of it
leads below, to the values at the next position, and on to the node of the next greater value. Below
the last position there is a leaf with the slot of the vector.

A node is reached by a link, which is either the head of the trie or one of the two links out of
another node. To add a node or to drop it means to redirect the link that leads there. Nodes that were
dropped are used again before the array grows.
-/
import SaturationCore.FeatureVector.Trie

namespace SaturationCore

/-- A node of a trie of vectors. -/
inductive TrieNode (α : Type) where
  /-- A value at one position, what is below it, and the next greater value there. -/
  | inner (value : Nat) (below greater : Option Nat)
  /-- The slot of a vector. -/
  | leaf (payload : Option α)

/-- Where it is stored which node comes next. -/
inductive TrieLink where
  | head
  | below (id : Nat)
  | greater (id : Nat)

/-- What is found in a chain: the node of a value, or the node of a greater one in front of which it
would stand. -/
inductive Sought where
  | found (id : Nat)
  | missing (greater : Option Nat)

/-- The nodes of a trie, those among them that are to be used again, and the length of the vectors
once it is fixed. -/
structure TrieStore (α : Type) where
  nodes : Array (TrieNode α)
  free : List Nat
  head : Option Nat
  length : Option Nat

namespace TrieNode

variable {α : Type}

/-- The node below. -/
def below : TrieNode α → Option Nat
  | inner _ below _ => below
  | leaf _ => none

/-- The node of the next greater value. -/
def greater : TrieNode α → Option Nat
  | inner _ _ greater => greater
  | leaf _ => none

/-- What the slot holds. -/
def payload : TrieNode α → Option α
  | inner _ _ _ => none
  | leaf payload => payload

/-- The node with another one below it. A leaf has none. -/
def withBelow (target : Option Nat) : TrieNode α → TrieNode α
  | inner value _ greater => inner value target greater
  | leaf payload => leaf payload

/-- The node with another one of a greater value. A leaf has none. -/
def withGreater (target : Option Nat) : TrieNode α → TrieNode α
  | inner value below _ => inner value below target
  | leaf payload => leaf payload

end TrieNode

namespace TrieStore

variable {α : Type}

/-- No nodes, and the length is open. -/
def empty : TrieStore α :=
  ⟨#[], [], none, none⟩

/-- Whether no vector is inserted. -/
def isEmpty (a : TrieStore α) : Bool :=
  a.head.isNone

/-- A node by its place. -/
def node (a : TrieStore α) (id : Nat) : Checked (TrieNode α) :=
  match a.nodes[id]? with
  | some node => .ok node
  | none => .error .outOfBounds

/-- Put another node at a place. -/
def put (a : TrieStore α) (id : Nat) (node : TrieNode α) : Checked (TrieStore α) :=
  if id < a.nodes.size then .ok { a with nodes := a.nodes.setIfInBounds id node }
  else .error .outOfBounds

/-- Where a link leads. -/
def follow (a : TrieStore α) : TrieLink → Checked (Option Nat)
  | .head => .ok a.head
  | .below id => do return (← a.node id).below
  | .greater id => do return (← a.node id).greater

/-- Redirect a link. -/
def redirect (a : TrieStore α) (link : TrieLink) (target : Option Nat) : Checked (TrieStore α) :=
  match link with
  | .head => .ok { a with head := target }
  | .below id => do a.put id ((← a.node id).withBelow target)
  | .greater id => do a.put id ((← a.node id).withGreater target)

/-- The value of a node in a chain. -/
def value (a : TrieStore α) (id : Nat) : Checked Nat := do
  match ← a.node id with
  | .inner value _ _ => return value
  | .leaf _ => .error .leafInChain

/-- A place for a node, one that was used before if there is any. -/
def alloc (a : TrieStore α) (node : TrieNode α) : Checked (Nat × TrieStore α) :=
  match a.free with
  | id :: free => do return (id, ← { a with free }.put id node)
  | [] => .ok (a.nodes.size, { a with nodes := a.nodes.push node })

/-- Give up the place of a node. -/
def release (a : TrieStore α) (id : Nat) : Checked (TrieStore α) := do
  let a ← a.put id (.leaf none)
  return { a with free := id :: a.free }

/-- Make a node and let a link lead there. -/
def attach (a : TrieStore α) (link : TrieLink) (node : TrieNode α) :
    Checked (Nat × TrieStore α) := do
  let (id, a) ← a.alloc node
  return (id, ← a.redirect link (some id))

/-- Let a link lead past a node and give the node up. -/
def detach (a : TrieStore α) (link : TrieLink) (id : Nat) (target : Option Nat) :
    Checked (TrieStore α) := do
  let a ← a.redirect link target
  a.release id

/-- Look for a value in the chain behind a link, and say which link leads to where it stands or would
stand. No chain is longer than `steps`. -/
def seek (a : TrieStore α) (value : Nat) : (steps : Nat) → TrieLink → Checked (TrieLink × Sought)
  | 0, _ => .error .brokenRule
  | steps + 1, link => do
    match ← a.follow link with
    | none => return (link, .missing none)
    | some id =>
      let here ← a.value id
      if here < value then seek a value steps (.greater id)
      else if here = value then return (link, .found id)
      else return (link, .missing (some id))

/-- Look for a value in the chain behind a link, which has no node twice. -/
def seekChain (a : TrieStore α) (value : Nat) (link : TrieLink) : Checked (TrieLink × Sought) :=
  a.seek value (a.nodes.size + 1) link

/-- The leaf of a vector behind a link. Nodes that are missing on the way there are made. -/
def enter : TrieStore α → List Nat → TrieLink → Checked (Nat × TrieStore α)
  | a, [], chain => do
    match ← a.follow chain with
    | some leaf => return (leaf, a)
    | none => a.attach chain (.leaf none)
  | a, value :: rest, chain => do
    match ← a.seekChain value chain with
    | (_, .found id) => enter a rest (.below id)
    | (link, .missing greater) =>
      let (id, a) ← a.attach link (.inner value none greater)
      enter a rest (.below id)

/-- Insert a vector and say which leaf it has and what is in the slot there. -/
def insert (a : TrieStore α) (v : List Nat) : Checked (Nat × Option α × TrieStore α) := do
  require (v.length == a.length.getD v.length) .wrongDimension
  let (leaf, a) ← { a with length := some v.length }.enter v .head
  match ← a.node leaf with
  | .leaf payload => return (leaf, payload, a)
  | .inner .. => .error .innerAtEnd

/-- The leaf of a vector behind a link, if there is one, and the nodes on the way there, the leaf
first, each with the link that leads to it. -/
def locateBehind (a : TrieStore α) : List Nat → TrieLink → List (TrieLink × Nat) →
    Checked (Option (Nat × List (TrieLink × Nat)))
  | [], chain, links => do
    match ← a.follow chain with
    | none => return none
    | some leaf => return some (leaf, (chain, leaf) :: links)
  | value :: rest, chain, links => do
    match ← a.seekChain value chain with
    | (link, .found id) => locateBehind a rest (.below id) ((link, id) :: links)
    | (_, .missing _) => return none

/-- The leaf of a vector and the way there. -/
def locate (a : TrieStore α) (v : List Nat) : Checked (Option (Nat × List (TrieLink × Nat))) :=
  if a.length = some v.length then a.locateBehind v .head [] else .ok none

/-- The payload of a vector. -/
def find (a : TrieStore α) (v : List Nat) : Checked (Option α) := do
  match ← a.locate v with
  | none => return none
  | some (leaf, _) => return (← a.node leaf).payload

/-- Replace the payload of a vector, if it has one. -/
def replace (a : TrieStore α) (v : List Nat) (payload : α) : Checked (Bool × TrieStore α) := do
  match ← a.locate v with
  | none => return (false, a)
  | some (leaf, _) =>
    match (← a.node leaf).payload with
    | some _ => return (true, ← a.put leaf (.leaf (some payload)))
    | none => return (false, a)

/-- Drop the nodes on a way that nothing is below of, from the last one up to the first that is to
stay. -/
def prune (a : TrieStore α) : List (TrieLink × Nat) → Checked (TrieStore α)
  | [] => .ok a
  | (link, id) :: above => do
    match ← a.node id with
    | .leaf _ => return a
    | .inner _ below greater =>
      if below.isSome then return a
      else
        let a ← a.detach link id greater
        a.prune above

/-- Take the payload of a vector and drop the nodes that only led to it. -/
def remove (a : TrieStore α) (v : List Nat) : Checked (Option α × TrieStore α) := do
  match ← a.locate v with
  | none => return (none, a)
  | some (leaf, links) =>
    let node ← a.node leaf
    let a ← match node with
      | .leaf _ => a.put leaf (.leaf none)
      | .inner .. => pure a
    match links with
    | [] => return (node.payload, a)
    | (link, _) :: above =>
      let a ← a.detach link leaf none
      return (node.payload, ← a.prune above)

end TrieStore

end SaturationCore
