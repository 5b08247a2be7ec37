/-
# Nodes of a discrimination tree

The terms stored in a discrimination tree are spelled along its branches, one
head a node. Siblings are arranged by their heads. The node that completes a term
holds the objects stored under it, one chain for each cluster.

Every node knows the intersection and the union of all clusters below it. From
those of a node and of its parent come two sets of bits to be tested on the way
down: bits that all clusters below have although some below the parent lack them,
and bits that none below has although some below the parent do. Each test so
stands at the highest node where it holds.

Nodes are only changed through `alterPath`, which renews what the nodes along one
spelling know about the clusters below them.
-/
import SaturationCore.Association
import SaturationCore.Cluster
import SaturationCore.Fault

namespace SaturationCore

/-- The arrangement of siblings: variables first, then symbols by category,
identifier and arity. Abstractions are never stored and come last. -/
def Head.order : Head → Head → Ordering
  | .var u, .var v => u.order v
  | .var _, _ => .lt
  | _, .var _ => .gt
  | .symbol s, .symbol t =>
    ((compare s.kind.rank t.kind.rank).then (compare s.id t.id)).then (compare s.arity t.arity)
  | .symbol _, .binder _ => .lt
  | .binder _, .symbol _ => .gt
  | .binder u, .binder v => u.order v

/-- The intersection and the union of some clusters. -/
structure Summary where
  all : Cluster
  any : Cluster
deriving DecidableEq, Repr

namespace Summary

/-- The summary of no cluster. -/
def none : Summary := ⟨.empty, .empty⟩

/-- The summary of one cluster. -/
def single (c : Cluster) : Summary := ⟨c, c⟩

/-- The summary of two groups of clusters together. -/
def join (a b : Summary) : Summary :=
  ⟨a.all.intersection b.all, a.any.union b.any⟩

/-- The summary of several groups of clusters together. -/
def merge : List Summary → Summary
  | [] => none
  | first :: rest => rest.foldl join first

/-- Whether a cluster could be among those summarised. -/
def admits (s : Summary) (c : Cluster) : Bool :=
  c.containsAll s.all && s.any.containsAll c

end Summary

/-- Bits that a cluster must have, and bits that it must not have. -/
structure ClusterTest where
  set : Cluster
  clear : Cluster
deriving DecidableEq, Repr

namespace ClusterTest

/-- The test without demands. -/
def trivial : ClusterTest := ⟨.empty, .empty⟩

/-- What is to be tested at a child and was not tested at its parent. -/
def between (parent child : Summary) : ClusterTest :=
  ⟨child.all.difference parent.all, parent.any.difference child.any⟩

/-- Whether a cluster meets the demands. -/
def passes (t : ClusterTest) (c : Cluster) : Bool :=
  c.containsAll t.set && c.isDisjoint t.clear

end ClusterTest

/-- A node of a discrimination tree. -/
inductive Node (α : Type) where
  | mk (head : Head) (summary : Summary) (test : ClusterTest)
      (leaves : List (Cluster × List α)) (children : List (Node α))

namespace Node

variable {α : Type}

/-- The head that the node stands for. -/
def head : Node α → Head
  | mk head _ _ _ _ => head

/-- The intersection and union of the clusters below. -/
def summary : Node α → Summary
  | mk _ summary _ _ _ => summary

/-- What is tested on entering the node. -/
def test : Node α → ClusterTest
  | mk _ _ test _ _ => test

/-- The objects stored under the term spelled down to the node, by cluster. -/
def leaves : Node α → List (Cluster × List α)
  | mk _ _ _ leaves _ => leaves

/-- The nodes that continue the spelling. -/
def children : Node α → List (Node α)
  | mk _ _ _ _ children => children

/-- A node on which nothing hangs. -/
def fresh (h : Head) : Node α :=
  mk h .none .trivial [] []

/-- Whether nothing is stored at the node or below. -/
def isDead (n : Node α) : Bool :=
  n.children.isEmpty && n.leaves.isEmpty

/-- The node as a child of a parent with a given summary. -/
def retest (parent : Summary) : Node α → Node α
  | mk head summary _ leaves children =>
    mk head summary (.between parent summary) leaves children

/-- The summary of the clusters below. -/
def summarise (leaves : List (Cluster × List α)) (children : List (Node α)) : Summary :=
  if children.isEmpty then .merge (leaves.map fun (c, _) => .single c)
  else .merge (children.map summary)

/-- A node over given leaves and children, whose tests are renewed. -/
def rebuild (h : Head) (leaves : List (Cluster × List α)) (children : List (Node α)) : Node α :=
  let summary := summarise leaves children
  mk h summary .trivial leaves (children.map (retest summary))

mutual

/-- How many nodes there are from this one downwards. -/
def count : Node α → Nat
  | mk _ _ _ _ children => countAll children + 1

/-- How many nodes there are from several downwards. -/
def countAll : List (Node α) → Nat
  | [] => 0
  | n :: rest => count n + countAll rest

end

/-- The sibling with a given head. -/
def find? (h : Head) (siblings : List (Node α)) : Option (Node α) :=
  siblings.find? fun n => n.head == h

/-- Put a node in its place among siblings, instead of one with its head. -/
def place (n : Node α) : List (Node α) → List (Node α)
  | [] => [n]
  | m :: rest =>
    match m.head.order n.head with
    | .lt => m :: place n rest
    | .eq => n :: rest
    | .gt => n :: m :: rest

/-- Change the leaves at the end of a spelling. Nodes on the way are made when they
are missing and given up when nothing is left on them. -/
def alterPath (change : List (Cluster × List α) → List (Cluster × List α)) :
    List Head → List (Node α) → List (Node α)
  | [], siblings => siblings
  | h :: rest, siblings =>
    let old := (find? h siblings).getD (fresh h)
    let node :=
      if rest.isEmpty then rebuild h (change old.leaves) old.children
      else rebuild h old.leaves (alterPath change rest old.children)
    if node.isDead then siblings.filter (·.head != h) else place node siblings

/-- The node at the end of a spelling. Comparing an abstraction with the heads of
siblings is a fault. -/
def locate? : List Head → List (Node α) → Checked (Option (Node α))
  | [], _ => return none
  | h :: rest, siblings => do
    match h with
    | .binder _ => require siblings.isEmpty .binderIndexed
    | _ => pure ()
    match find? h siblings with
    | none => return none
    | some n => if rest.isEmpty then return some n else locate? rest n.children

end Node

end SaturationCore
