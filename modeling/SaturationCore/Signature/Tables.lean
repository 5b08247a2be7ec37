/-
# Signatures in three tables

The symbols of a signature can be kept in three tables: the declarations in the order in which
they were made, the identifiers by what was asked for, and the identifiers by name. A request is
answered from the second table alone, and a declaration changes all three, each on its own.
Nothing but the order in which symbols are declared ties one table to another, or to the
identifiers that equality and the logical symbols have outside of any signature.

Identifiers are numbers of 32 bits. The number of a new symbol is cut off to that.
-/
import SaturationCore.Signature

namespace SaturationCore

/-- What a symbol is declared under. -/
@[ext]
structure SymbolKey where
  name : String
  kind : SymbolKind
  arity : Nat
deriving DecidableEq, Repr

/-- What equality is declared under. -/
def SymbolKey.equality : SymbolKey := ⟨"=", .predicate, 2⟩

/-- What the connective is declared under. -/
def Connective.key (c : Connective) : SymbolKey := ⟨c.name, c.symbol.kind, c.symbol.arity⟩

/-- What the quantifier is declared under. -/
def Quantifier.key (q : Quantifier) : SymbolKey := ⟨q.name, .quantifier, 1⟩

/-- The declarations, the identifiers by key, and the identifiers by name, oldest first. -/
structure SymbolTables where
  entries : Array Declaration
  ids : SymbolKey → Option Nat
  names : String → Option (List Nat)

namespace SymbolTables

/-- What identifiers stay below. -/
def idLimit : Nat := 1 <<< 32

/-- Nothing is declared. -/
def empty : SymbolTables := ⟨#[], fun _ => none, fun _ => none⟩

/-- The declaration an identifier stands for. -/
def entry (t : SymbolTables) (id : Nat) : Checked Declaration :=
  match t.entries[id]? with
  | some d => .ok d
  | none => .error .outOfBounds

/-- The symbol with a given identifier. -/
def symbol (t : SymbolTables) (id : Nat) : Checked Symbol :=
  return (← t.entry id).symbol

/-- The name of the symbol with a given identifier. -/
def resolve (t : SymbolTables) (id : Nat) : Checked String :=
  return (← t.entry id).name

/-- The identifiers of all symbols of a name, whatever their category and arity. -/
def lookup (t : SymbolTables) (name : String) : List Nat :=
  (t.names name).getD []

/-- How many symbols are declared. -/
def size (t : SymbolTables) : Nat :=
  t.entries.size

/-- Declare a new symbol in every table. -/
def put (t : SymbolTables) (key : SymbolKey) (s : Symbol) : SymbolTables where
  entries := t.entries.push ⟨key.name, s⟩
  ids k := if k = key then some s.id else t.ids k
  names name := if name = key.name then some (t.lookup name ++ [s.id]) else t.names name

/-- The symbol of a key, declared now unless it was before. -/
def intern (t : SymbolTables) (key : SymbolKey) : Checked (Symbol × SymbolTables) :=
  match t.ids key with
  | some id => do return (← t.symbol id, t)
  | none =>
    let s : Symbol := ⟨t.size % idLimit, key.kind, key.arity⟩
    .ok (s, t.put key s)

/-- Declare a symbol, which has to become the last one. -/
def reserve (t : SymbolTables) (key : SymbolKey) : Checked SymbolTables := do
  let (s, t) ← t.intern key
  require (s.id + 1 == t.size) .brokenRule
  return t

/-- What is declared from the start, in the order in which it is. -/
def reservedKeys : List SymbolKey :=
  .equality :: (Connective.all.map (·.key) ++ Quantifier.all.map (·.key))

/-- The tables that hold equality and the logical symbols only. -/
def initial : Checked SymbolTables :=
  reservedKeys.foldlM reserve empty

/-- The symbol that stands at the place of equality. -/
def equality (t : SymbolTables) : Checked Symbol :=
  t.symbol Symbol.equality.id

/-- Declare an individual constant. -/
def internConstant (t : SymbolTables) (name : String) : Checked (Symbol × SymbolTables) :=
  t.intern ⟨name, .constant, 0⟩

/-- Declare a function. Without arguments it is a constant. -/
def internFunction (t : SymbolTables) (name : String) (arity : Nat) :
    Checked (Symbol × SymbolTables) :=
  if arity = 0 then t.internConstant name else t.intern ⟨name, .function, arity⟩

/-- Declare a predicate. The binary predicate named `=` is equality itself. -/
def internPredicate (t : SymbolTables) (name : String) (arity : Nat) :
    Checked (Symbol × SymbolTables) :=
  if name = "=" ∧ arity = 2 then do return (← t.equality, t)
  else t.intern ⟨name, .predicate, arity⟩

end SymbolTables

end SaturationCore
