/-
# The interchange form of terms, clauses and clusters

Terms and clauses are exchanged as JSON documents that show their trees as they
are, roles included. Reading does not compare roles, categories, arities and
arguments with each other, so trees that are not well-formed can come in.
-/
import SaturationCore.Clause
import SaturationCore.Cluster
import SaturationCore.Json.Schema

namespace SaturationCore

/-- The name of a category. -/
def SymbolKind.name : SymbolKind → String
  | constant => "IndividualConstant"
  | function => "Function"
  | predicate => "Predicate"
  | quantifier => "Quantifier"
  | connective => "Connective"

/-- The category with a given name. -/
def SymbolKind.ofName? (name : String) : Option SymbolKind :=
  [constant, function, predicate, quantifier, connective].find? fun kind => kind.name == name

/-- The document of a symbol. -/
def Symbol.toJson (s : Symbol) : Json :=
  .record [("id", .nat s.id), ("kind", .text s.kind.name), ("arity", .nat s.arity)]

/-- The symbol that a document shows. -/
def Symbol.ofJson? (j : Json) : Option Symbol := do
  match ← j.record? ["id", "kind", "arity"] with
  | [some id, some kind, some arity] =>
    return ⟨← id.natBelow? (1 <<< 32), ← kind.name? SymbolKind.ofName?, ← arity.natBelow? (1 <<< 8)⟩
  | _ => none

/-- The document of a variable. -/
def Variable.toJson (v : Variable) : Json :=
  .record [("bank", .nat v.bank), ("index", .nat v.index)]

/-- The variable that a document shows. -/
def Variable.ofJson? (j : Json) : Option Variable := do
  match ← j.record? ["bank", "index"] with
  | [some bank, some index] => return ⟨← bank.natBelow? (1 <<< 16), ← index.natBelow? (1 <<< 32)⟩
  | _ => none

namespace Term

/-- The name of an application in a given role. -/
def roleName : SymbolKind → String
  | .constant => "Constant"
  | .function => "Function"
  | .predicate => "Atom"
  | .connective => "Connective"
  | .quantifier => "Quantifier"

mutual

/-- The document of a term. Constants show their symbol alone, quantifiers show the
formula they stand in front of, other applications show a list of arguments. -/
def toJson : Term → Json
  | .var v => .record [("Variable", v.toJson)]
  | .abstraction v body => .record [("Abstraction", .array [v.toJson, toJson body])]
  | .app .constant s _ => .record [("Constant", s.toJson)]
  | .app .quantifier s args => .record [("Quantifier", .array (s.toJson :: allToJson args))]
  | .app role s args => .record [(roleName role, .array [s.toJson, .array (allToJson args)])]

/-- The documents of a sequence of terms. -/
def allToJson : List Term → List Json
  | [] => []
  | t :: ts => toJson t :: allToJson ts

end

mutual

/-- The term that a document shows. -/
def ofJson? : Json → Option Term
  | .object [(some "Variable", v)] => (Variable.ofJson? v).map .var
  | .object [(some "Constant", s)] => (Symbol.ofJson? s).map fun s => .app .constant s []
  | .object [(some "Function", .array [s, .array args])] => do
    return .app .function (← Symbol.ofJson? s) (← allOfJson? args)
  | .object [(some "Atom", .array [s, .array args])] => do
    return .app .predicate (← Symbol.ofJson? s) (← allOfJson? args)
  | .object [(some "Connective", .array [s, .array args])] => do
    return .app .connective (← Symbol.ofJson? s) (← allOfJson? args)
  | .object [(some "Quantifier", .array [s, body])] => do
    return .app .quantifier (← Symbol.ofJson? s) [← ofJson? body]
  | .object [(some "Abstraction", .array [v, body])] => do
    return .abstraction (← Variable.ofJson? v) (← ofJson? body)
  | _ => none

/-- The terms that a sequence of documents shows. -/
def allOfJson? : List Json → Option (List Term)
  | [] => some []
  | j :: js => do return (← ofJson? j) :: (← allOfJson? js)

end

end Term

/-- The document of a literal. -/
def Literal.toJson (l : Literal) : Json :=
  .record [("atom", l.atom.toJson), ("polarity", .bool l.polarity)]

/-- The literal that a document shows. -/
def Literal.ofJson? (j : Json) : Option Literal := do
  match ← j.record? ["atom", "polarity"] with
  | [some atom, some polarity] => return ⟨← Term.ofJson? atom, ← polarity.bool?⟩
  | _ => none

/-- The document of a clause. -/
def Clause.toJson (c : Clause) : Json :=
  .record [("literals", .list Literal.toJson c.literals)]

/-- The clause that a document shows. -/
def Clause.ofJson? (j : Json) : Option Clause := do
  match ← j.record? ["literals"] with
  | [some literals] => return ⟨← literals.listOf? Literal.ofJson?⟩
  | _ => none

/-- The document of a cluster, which shows its words. -/
def Cluster.toJson (c : Cluster) : Json :=
  .record [("words", .list .nat c.words)]

/-- The cluster that a document shows, in the words that it shows. -/
def Cluster.ofJson? (j : Json) : Option Cluster := do
  match ← j.record? ["words"] with
  | [some words] => return .ofWords (← words.listOf? (Json.natBelow? (1 <<< 64)))
  | _ => none

end SaturationCore
