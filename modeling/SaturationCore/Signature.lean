/-
# Signatures

A signature is the table of the symbols declared so far. Declaring is
get-or-create: the same name, category and arity always yield the same symbol,
and a symbol's identifier is its place in the table, so it never changes. The
logical symbols and equality are in every signature from the start.

A signature also opens the banks that variables are drawn from.
-/
import SaturationCore.Fault

namespace SaturationCore

/-- A declared symbol with its name. -/
structure Declaration where
  name : String
  symbol : Symbol
deriving DecidableEq, Repr

/-- The symbols declared so far, each at the place its identifier names, and
the number of variable banks opened. -/
structure Signature where
  declarations : Array Declaration
  banks : Nat

/-- A source of variables. Its counter is the number of the next fresh one. -/
structure VariableBank where
  id : Nat
  next : Nat
deriving DecidableEq, Repr

namespace VariableBank

/-- A variable that this bank never gave before. -/
def fresh (b : VariableBank) : Variable × VariableBank :=
  (⟨b.id, b.next⟩, { b with next := b.next + 1 })

/-- The variable of a given number, whether or not it was given before. -/
def get (b : VariableBank) (index : Nat) : Variable :=
  ⟨b.id, index⟩

end VariableBank

namespace Signature

/-- The symbol declared under exactly this name, category and arity. -/
def find? (σ : Signature) (name : String) (kind : SymbolKind) (arity : Nat) : Option Symbol :=
  (σ.declarations.find? fun d =>
    d.name == name && d.symbol.kind == kind && d.symbol.arity == arity).map (·.symbol)

/-- The symbol of this name, category and arity, declared now unless it was before. -/
def intern (σ : Signature) (name : String) (kind : SymbolKind) (arity : Nat) :
    Symbol × Signature :=
  match σ.find? name kind arity with
  | some symbol => (symbol, σ)
  | none =>
    let symbol : Symbol := ⟨σ.declarations.size, kind, arity⟩
    (symbol, { σ with declarations := σ.declarations.push ⟨name, symbol⟩ })

/-- The signature that holds equality and the logical symbols only. -/
def initial : Signature :=
  let equality := (Signature.mk #[] 0).intern "=" .predicate 2
  let connectives := Connective.all.foldl
    (fun σ c => (σ.intern c.name .connective c.symbol.arity).2) equality.2
  Quantifier.all.foldl (fun σ q => (σ.intern q.name .quantifier 1).2) connectives

/-- Declare an individual constant. -/
def internConstant (σ : Signature) (name : String) : Symbol × Signature :=
  σ.intern name .constant 0

/-- Declare a function. Without arguments it is a constant. -/
def internFunction (σ : Signature) (name : String) (arity : Nat) : Symbol × Signature :=
  if arity = 0 then σ.internConstant name else σ.intern name .function arity

/-- Declare a predicate. The binary predicate named `=` is equality itself. -/
def internPredicate (σ : Signature) (name : String) (arity : Nat) : Symbol × Signature :=
  if name = "=" ∧ arity = 2 then (Symbol.equality, σ) else σ.intern name .predicate arity

/-- The declaration an identifier stands for. -/
def declaration (σ : Signature) (id : Nat) : Checked Declaration :=
  match σ.declarations[id]? with
  | some d => .ok d
  | none => .error .outOfBounds

/-- The symbol with a given identifier. -/
def symbol (σ : Signature) (id : Nat) : Checked Symbol :=
  return (← σ.declaration id).symbol

/-- The name of the symbol with a given identifier. -/
def resolve (σ : Signature) (id : Nat) : Checked String :=
  return (← σ.declaration id).name

/-- The identifiers of all symbols of a name, whatever their category and arity. -/
def lookup (σ : Signature) (name : String) : List Nat :=
  (σ.declarations.toList.filter (·.name == name)).map (·.symbol.id)

/-- How many symbols are declared. -/
def size (σ : Signature) : Nat :=
  σ.declarations.size

/-- Banks are numbered by sixteen bits, and the counter must stay in range after
the bank is opened. -/
def bankLimit : Nat := 1 <<< 16

/-- Open a further bank of variables. -/
def openBank (σ : Signature) : Checked (VariableBank × Signature) :=
  if σ.banks + 1 < bankLimit then
    .ok (⟨σ.banks, 0⟩, { σ with banks := σ.banks + 1 })
  else
    .error .overflow

/-- Open several banks, one after the other. -/
def openBanks (σ : Signature) (n : Nat) : Checked (Array VariableBank × Signature) :=
  (List.range n).foldlM
    (fun (banks, σ) _ => do
      let (bank, σ) ← openBank σ
      return (banks.push bank, σ))
    (#[], σ)

end Signature

end SaturationCore
