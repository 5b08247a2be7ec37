/-
# The clustered discrimination tree

The index maps pairs of a term and a cluster to objects. Terms with a symbol at
the root are spread over a fixed number of buckets by that symbol, and within a
bucket they share a tree. Terms that are a bare variable unify with everything;
they are kept apart, by cluster and in order of insertion.

Searches hold the index open, and while one does the index refuses to change.
-/
import SaturationCore.DiscriminationTree.Node
import SaturationCore.Flatterm.Subterm

namespace SaturationCore

/-- The trees of the terms whose root falls into one bucket. -/
structure Bucket (α : Type) where
  roots : List (Node α)
  summary : Summary

namespace Bucket

variable {α : Type}

/-- The bucket without terms. -/
def empty : Bucket α := ⟨[], .none⟩

/-- Change the leaves at the end of a spelling. -/
def alter (change : List (Cluster × List α) → List (Cluster × List α)) (spelling : List Head)
    (b : Bucket α) : Bucket α :=
  let roots := Node.alterPath change spelling b.roots
  let summary := Summary.merge (roots.map (·.summary))
  ⟨roots.map (Node.retest summary), summary⟩

/-- The roots, if a cluster could be below any of them. -/
def rootsFor (b : Bucket α) (c : Cluster) : List (Node α) :=
  if b.summary.admits c then b.roots else []

end Bucket

/-- A map from terms and clusters to objects that can be searched by unification. -/
structure Index (α : Type) where
  buckets : Array (Bucket α)
  bareVariables : List (Cluster × List (Variable × List α))
  size : Nat
  openRetrievals : Nat

namespace Index

variable {α : Type}

/-- An index with a number of buckets, of which there has to be at least one. -/
def create (buckets : Nat) : Checked (Index α) := do
  require (0 < buckets) .noBucket
  return ⟨Array.replicate buckets .empty, [], 0, 0⟩

/-- Whether nothing is stored. -/
def isEmpty (ix : Index α) : Bool :=
  ix.size == 0

/-- The bucket of the terms with a given head. -/
def bucketOf (ix : Index α) (h : Head) : Checked Nat :=
  match h with
  | .symbol s => .ok (s.id % ix.buckets.size)
  | _ => .error .unbucketed

/-- The bucket at a place. -/
def bucket (ix : Index α) (place : Nat) : Bucket α :=
  ix.buckets.getD place .empty

/-- Refuse to change while a search is open. -/
def requireClosed (ix : Index α) : Checked Unit :=
  require (ix.openRetrievals == 0) .changedDuringRetrieval

/-- The objects stored under a bare variable and a cluster. -/
def variableObjects (ix : Index α) (v : Variable) (c : Cluster) : List α :=
  (((ix.bareVariables.lookup c).getD []).lookup v).getD []

/-- The objects stored under a term with a symbol at its root and a cluster, and
the bucket of the term. -/
def treeObjects (ix : Index α) (t : Subterm) (c : Cluster) : Checked (Nat × List α) := do
  let place ← ix.bucketOf t.head
  match ← Node.locate? t.spelling (ix.bucket place).roots with
  | some n => return (place, (n.leaves.lookup c).getD [])
  | none => return (place, [])

/-- How many objects are stored under exactly this term and cluster. -/
def count (ix : Index α) (t : Subterm) (c : Cluster) : Checked Nat :=
  match t.asVariable with
  | some v => return (ix.variableObjects v c).length
  | none => return (← ix.treeObjects t c).2.length

/-- Change the objects that a cluster has under a bare variable. -/
def alterVariable (ix : Index α) (v : Variable) (c : Cluster)
    (change : Option (List α) → Option (List α)) : Index α :=
  { ix with
    bareVariables := Association.alter c
      (fun entries =>
        let changed := Association.alter v change (entries.getD [])
        if changed.isEmpty then none else some changed)
      ix.bareVariables }

/-- Change the leaves at the end of a spelling in a bucket. -/
def alterTree (ix : Index α) (place : Nat) (spelling : List Head)
    (change : List (Cluster × List α) → List (Cluster × List α)) : Index α :=
  { ix with buckets := ix.buckets.modify place (Bucket.alter change spelling) }

/-- Store an object under a term and a cluster. -/
def insert (ix : Index α) (t : Subterm) (c : Cluster) (object : α) : Checked (Index α) := do
  ix.requireClosed
  require t.isQuantifierFree .quantifiedEntry
  let ix := { ix with size := ix.size + 1 }
  match t.asVariable with
  | some v => return ix.alterVariable v c fun old => some (old.getD [] ++ [object])
  | none =>
    let place ← ix.bucketOf t.head
    return ix.alterTree place t.spelling (Association.append c [object])

/-- Delete the objects under a term and a cluster that satisfy a condition, and say
how many there were. -/
def erase (ix : Index α) (t : Subterm) (c : Cluster) (condition : α → Bool) :
    Checked (Nat × Index α) := do
  ix.requireClosed
  match t.asVariable with
  | some v =>
    let (gone, kept) := (ix.variableObjects v c).partition condition
    if gone.isEmpty then return (0, ix)
    else
      let ix := ix.alterVariable v c fun _ => if kept.isEmpty then none else some kept
      return (gone.length, { ix with size := ix.size - gone.length })
  | none =>
    let (place, objects) ← ix.treeObjects t c
    let (gone, kept) := objects.partition condition
    if gone.isEmpty then return (0, ix)
    else
      let ix := ix.alterTree place t.spelling (Association.assign c kept)
      return (gone.length, { ix with size := ix.size - gone.length })

/-- Move the objects under a term and a cluster that satisfy a condition to another
cluster of the term, and say how many there were. -/
def relocate (ix : Index α) (t : Subterm) (c target : Cluster) (condition : α → Bool) :
    Checked (Nat × Index α) := do
  ix.requireClosed
  match t.asVariable with
  | some v =>
    let (moved, kept) := (ix.variableObjects v c).partition condition
    if moved.isEmpty then return (0, ix)
    else
      let ix := ix.alterVariable v c fun _ => if kept.isEmpty then none else some kept
      let ix := ix.alterVariable v target fun old => some (old.getD [] ++ moved)
      return (moved.length, ix)
  | none =>
    let (place, objects) ← ix.treeObjects t c
    let (moved, kept) := objects.partition condition
    if moved.isEmpty then return (0, ix)
    else
      let ix := ix.alterTree place t.spelling fun leaves =>
        Association.append target moved (Association.assign c kept leaves)
      return (moved.length, ix)

end Index

end SaturationCore
