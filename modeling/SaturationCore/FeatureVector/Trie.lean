/-
# Tries of feature vectors

A trie maps vectors of numbers to slots. Branches ascend at every level, so a walk
from left to right meets the vectors in lexicographic order. A slot is made when
its vector is inserted, and may stay empty; removing a vector removes its slot and
every branch that led nowhere else.

All vectors of an index have one length, which the first insertion fixes for good.
-/
import SaturationCore.Fault

namespace SaturationCore

/-- The vectors with a common beginning: either the slot of a complete vector, or
one branch for each number that continues the beginning. -/
inductive Trie (α : Type) where
  | slot (payload : Option α)
  | branches (edges : List (Nat × Trie α))

namespace Trie

variable {α : Type}

/-- The trie that holds just one vector. -/
def path (payload : Option α) : List Nat → Trie α
  | [] => slot payload
  | n :: rest => branches [(n, path payload rest)]

/-- The branch of a number. -/
def follow? (n : Nat) (edges : List (Nat × Trie α)) : Option (Trie α) :=
  edges.lookup n

/-- Put a branch in its place, instead of one of the same number. -/
def place (n : Nat) (below : Trie α) : List (Nat × Trie α) → List (Nat × Trie α)
  | [] => [(n, below)]
  | (m, t) :: rest =>
    if m < n then (m, t) :: place n below rest
    else if m = n then (n, below) :: rest
    else (n, below) :: (m, t) :: rest

/-- The slot of a vector, if it was inserted. -/
def find? : List Nat → Trie α → Option (Option α)
  | [], slot payload => some payload
  | n :: rest, branches edges => (follow? n edges).bind (find? rest)
  | _, _ => none

/-- Fill the slot of a vector, which is made if there is none. -/
def fill (payload : Option α) : List Nat → Trie α → Trie α
  | n :: rest, branches edges =>
    match follow? n edges with
    | some below => branches (place n (fill payload rest below) edges)
    | none => branches (place n (path payload rest) edges)
  | [], _ => slot payload
  | _ :: _, t => t

/-- The trie without a vector, or nothing if that was the last one. -/
def remove : List Nat → Trie α → Option (Trie α)
  | n :: rest, branches edges =>
    match follow? n edges with
    | none => some (branches edges)
    | some below =>
      let kept := match remove rest below with
        | some below => place n below edges
        | none => edges.filter (·.1 != n)
      if kept.isEmpty then none else some (branches kept)
  | [], slot _ => none
  | _, t => some t

mutual

/-- The filled vectors in lexicographic order, with their payloads. -/
def entries : Trie α → List (List Nat × α)
  | slot payload => (payload.map ([], ·)).toList
  | branches edges => entriesAll edges

/-- The filled vectors behind several branches. -/
def entriesAll : List (Nat × Trie α) → List (List Nat × α)
  | [] => []
  | (n, below) :: rest => (entries below).map (fun (v, a) => (n :: v, a)) ++ entriesAll rest

end

end Trie

/-- A map from vectors of one length to payloads. -/
structure FeatureIndex (α : Type) where
  length : Option Nat
  root : Option (Trie α)

namespace FeatureIndex

variable {α : Type}

/-- The index without vectors, whose length is still open. -/
def empty : FeatureIndex α := ⟨none, none⟩

/-- Whether no vector is inserted. -/
def isEmpty (ix : FeatureIndex α) : Bool :=
  ix.root.isNone

/-- The slot of a vector, if it was inserted. -/
def slot? (ix : FeatureIndex α) (v : List Nat) : Option (Option α) :=
  if ix.length = some v.length then ix.root.bind (Trie.find? v) else none

/-- The payload of a vector. -/
def find? (ix : FeatureIndex α) (v : List Nat) : Option α :=
  (ix.slot? v).join

/-- Insert a vector and say what its slot holds: nothing if the vector is new. -/
def insert (ix : FeatureIndex α) (v : List Nat) : Checked (Option α × FeatureIndex α) := do
  require (v.length == ix.length.getD v.length) .wrongDimension
  let ix := { ix with length := some v.length }
  match ix.slot? v with
  | some payload => return (payload, ix)
  | none =>
    let root := match ix.root with
      | some t => t.fill none v
      | none => .path none v
    return (none, { ix with root := some root })

/-- Fill the slot of an inserted vector. -/
def fill (ix : FeatureIndex α) (v : List Nat) (payload : α) : FeatureIndex α :=
  if (ix.slot? v).isSome then { ix with root := ix.root.map (Trie.fill (some payload) v) }
  else ix

/-- Replace the payload of a vector, if it has one. -/
def replace (ix : FeatureIndex α) (v : List Nat) (payload : α) : Bool × FeatureIndex α :=
  match ix.find? v with
  | some _ => (true, ix.fill v payload)
  | none => (false, ix)

/-- Take the payload of a vector and remove the vector. -/
def remove (ix : FeatureIndex α) (v : List Nat) : Option α × FeatureIndex α :=
  match ix.slot? v with
  | none => (none, ix)
  | some payload => (payload, { ix with root := ix.root.bind (Trie.remove v) })

end FeatureIndex

end SaturationCore
