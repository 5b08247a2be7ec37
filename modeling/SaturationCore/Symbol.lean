/-
# Symbols, variables and heads

A first-order language is spelled with two kinds of names. Symbols are fixed:
constants, functions and predicates of the problem at hand, plus the logical
symbols every problem shares. Variables are numbered within banks, so that two
copies of one clause can be kept apart by giving each its own bank.

A `Head` is what stands at the root of a term. A term is determined by the
sequence of its heads in prefix order, because every head knows how many
arguments follow it.
-/

namespace SaturationCore

/-- The category of a symbol. The constructors are listed in ascending rank. -/
inductive SymbolKind where
  | constant
  | function
  | predicate
  | quantifier
  | connective
deriving DecidableEq, Repr

namespace SymbolKind

/-- The place of the category in the order used for precedence and for
arranging the branches of a discrimination tree. -/
def rank : SymbolKind → Nat
  | constant => 0
  | function => 1
  | predicate => 2
  | quantifier => 3
  | connective => 4

/-- Connectives and quantifiers belong to the logic, not to a problem. -/
def isLogical : SymbolKind → Bool
  | quantifier | connective => true
  | _ => false

end SymbolKind

/-- A symbol is known by its identifier; category and arity travel with it so
that terms can be read without consulting a signature. -/
structure Symbol where
  id : Nat
  kind : SymbolKind
  arity : Nat
deriving DecidableEq, Repr

namespace Symbol

/-- The equality predicate owns the first identifier of every signature. -/
def equality : Symbol := ⟨0, .predicate, 2⟩

/-- Equality is recognised by its identifier alone. -/
def isEquality (s : Symbol) : Bool := s.id == 0

/-- Constants, functions and predicates are declared by a problem. -/
def isDeclared (s : Symbol) : Bool := !s.kind.isLogical

end Symbol

/-- The connectives of the logic. -/
inductive Connective where
  | not
  | and
  | or
  | implies
  | equivalent
deriving DecidableEq, Repr

namespace Connective

/-- All connectives, in the order of their identifiers. -/
def all : List Connective := [not, and, or, implies, equivalent]

/-- Connectives own the identifiers directly after equality. -/
def symbol : Connective → Symbol
  | not => ⟨1, .connective, 1⟩
  | and => ⟨2, .connective, 2⟩
  | or => ⟨3, .connective, 2⟩
  | implies => ⟨4, .connective, 2⟩
  | equivalent => ⟨5, .connective, 2⟩

/-- How the connective is written. -/
def name : Connective → String
  | not => "~"
  | and => "&"
  | or => "|"
  | implies => "=>"
  | equivalent => "<=>"

/-- The connective written as `text`. -/
def ofName? (text : String) : Option Connective :=
  all.find? fun c => c.name == text

end Connective

/-- The quantifiers of the logic. -/
inductive Quantifier where
  | universal
  | existential
deriving DecidableEq, Repr

namespace Quantifier

/-- All quantifiers, in the order of their identifiers. -/
def all : List Quantifier := [Quantifier.universal, Quantifier.existential]

/-- Quantifiers own the identifiers directly after the connectives. -/
def symbol : Quantifier → Symbol
  | Quantifier.universal => ⟨6, .quantifier, 1⟩
  | Quantifier.existential => ⟨7, .quantifier, 1⟩

/-- How the quantifier is written. -/
def name : Quantifier → String
  | Quantifier.universal => "!"
  | Quantifier.existential => "?"

/-- The quantifier written as `text`. -/
def ofName? (text : String) : Option Quantifier :=
  all.find? fun q => q.name == text

end Quantifier

/-- A variable is a number within a bank. -/
structure Variable where
  bank : Nat
  index : Nat
deriving DecidableEq, Repr

namespace Variable

/-- Variables are arranged by bank, and within a bank by number. -/
def order (u v : Variable) : Ordering :=
  (compare u.bank v.bank).then (compare u.index v.index)

/-- The first bank is the usual one and stays unwritten. -/
def display (v : Variable) : String :=
  if v.bank = 0 then s!"X{v.index}" else s!"X{v.index}@{v.bank}"

end Variable

/-- What stands at the root of a term. A binder is the abstraction of its
variable from the body that follows as its only argument. -/
inductive Head where
  | var (v : Variable)
  | symbol (s : Symbol)
  | binder (v : Variable)
deriving DecidableEq, Repr

namespace Head

/-- How many arguments follow the head. -/
def arity : Head → Nat
  | .var _ => 0
  | .symbol s => s.arity
  | .binder _ => 1

/-- The variable standing at a leaf. -/
def asVariable : Head → Option Variable
  | .var v => some v
  | _ => none

theorem asVariable_eq_some {h : Head} {v : Variable} : h.asVariable = some v ↔ h = .var v := by
  cases h <;> simp [asVariable]

theorem mem_filterMap_asVariable {hs : List Head} {v : Variable} :
    v ∈ hs.filterMap (·.asVariable) ↔ .var v ∈ hs := by
  simp only [List.mem_filterMap, asVariable_eq_some, exists_eq_right]

/-- A variable standing at a leaf; the variable of a binder does not count. -/
def isVariable : Head → Bool
  | .var _ => true
  | _ => false

theorem exists_var_of_isVariable {h : Head} (leaf : h.isVariable = true) : ∃ v, h = .var v := by
  cases h with
  | var v => exact ⟨v, rfl⟩
  | symbol s => cases leaf
  | binder v => cases leaf

/-- Quantifiers and abstractions, which indexing and matching refuse. -/
def isBinder : Head → Bool
  | .var _ => false
  | .symbol s => s.kind == .quantifier
  | .binder _ => true

/-- Heads are written apart from any signature by their identifiers. -/
def display : Head → String
  | .var v => v.display
  | .symbol s => s!"#{s.id}"
  | .binder v => s!"^{v.display}"

end Head

end SaturationCore
