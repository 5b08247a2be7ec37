/-
# Settings

Settings come as a JSON text. They say how many buckets an index has and, by the
names of symbols, what the symbols weigh and how they rank. Everything may be left
out and then has its usual value.

Reading a text checks the two numbers that must not be zero. Resolving the names
needs a signature; a name stands for every symbol that carries it.
-/
import SaturationCore.Json.Reader
import SaturationCore.Json.Schema
import SaturationCore.Order.KnuthBendix
import SaturationCore.Signature

namespace SaturationCore

/-- Why settings are refused. -/
inductive SettingsError where
  /-- The text is no JSON, or no document of the expected form. -/
  | malformed
  /-- An index without buckets is asked for. -/
  | emptyHashTable
  /-- Variables are to weigh nothing. -/
  | zeroVariableWeight
  /-- No symbol carries a name. -/
  | unknownSymbol (name : String)
deriving DecidableEq, Repr

/-- The wording of an error, where it has one of its own. -/
def SettingsError.message : SettingsError → Option String
  | malformed => none
  | emptyHashTable => some "index hash table size must be positive"
  | zeroVariableWeight => some "variable weight must be positive"
  | unknownSymbol name => some ("unknown symbol in configuration: " ++ name)

/-- What is set about an index. -/
structure IndexSettings where
  buckets : Nat := 64
deriving DecidableEq, Repr

/-- What is set about the ordering, by the names of symbols. -/
structure OrderSettings where
  weights : List (String × Nat) := []
  ranks : List (String × Nat) := []
  variableWeight : Nat := 1
deriving DecidableEq, Repr

/-- All settings. -/
structure Settings where
  index : IndexSettings := {}
  order : OrderSettings := {}
deriving DecidableEq, Repr

/-- The value of a member, or its usual value if it is left out. -/
def memberOr {α : Type} (form : Json → Option α) (usual : α) : Option Json → Option α
  | some j => form j
  | none => some usual

/-- Settings are written as machine words. -/
def word? : Json → Option Nat :=
  Json.natBelow? (1 <<< 64)

namespace IndexSettings

/-- The settings that a document shows. -/
def ofJson? (j : Json) : Option IndexSettings := do
  match ← j.record? ["hash_table_size"] with
  | [buckets] => return { buckets := ← memberOr word? 64 buckets }
  | _ => none

/-- The document of the settings. -/
def toJson (s : IndexSettings) : Json :=
  .record [("hash_table_size", .nat s.buckets)]

/-- An index needs a bucket. -/
def validate (s : IndexSettings) : Except SettingsError Unit :=
  if s.buckets = 0 then .error .emptyHashTable else .ok ()

end IndexSettings

namespace OrderSettings

/-- The settings that a document shows. -/
def ofJson? (j : Json) : Option OrderSettings := do
  match ← j.record? ["symbol_weights", "symbol_precedence", "variable_weight"] with
  | [weights, ranks, variableWeight] =>
    return {
      weights := ← memberOr (Json.mapOf? word?) [] weights
      ranks := ← memberOr (Json.mapOf? word?) [] ranks
      variableWeight := ← memberOr word? 1 variableWeight }
  | _ => none

/-- The document of the settings. -/
def toJson (s : OrderSettings) : Json :=
  let table (entries : List (String × Nat)) : Json :=
    .record (entries.map fun (name, n) => (name, .nat n))
  .record [
    ("symbol_weights", table s.weights),
    ("symbol_precedence", table s.ranks),
    ("variable_weight", .nat s.variableWeight)]

/-- Variables have to weigh something. -/
def validate (s : OrderSettings) : Except SettingsError Unit :=
  if s.variableWeight = 0 then .error .zeroVariableWeight else .ok ()

/-- Entries by identifier, for every symbol that carries the name of an entry. -/
def resolve (σ : Signature) (entries : List (String × Nat)) :
    Except SettingsError (List (Nat × Nat)) := do
  let resolved ← entries.mapM fun (name, n) =>
    match σ.lookup name with
    | [] => throw (.unknownSymbol name)
    | ids => pure (ids.map (·, n))
  return resolved.flatten

/-- The ordering that the settings describe over a signature. -/
def ordering (s : OrderSettings) (σ : Signature) : Except SettingsError KnuthBendix := do
  s.validate
  return ⟨← resolve σ s.weights, ← resolve σ s.ranks, s.variableWeight⟩

end OrderSettings

namespace Settings

/-- The settings that a document shows. -/
def ofJson? (j : Json) : Option Settings := do
  match ← j.record? ["index", "kbo"] with
  | [index, order] =>
    return {
      index := ← memberOr IndexSettings.ofJson? {} index
      order := ← memberOr OrderSettings.ofJson? {} order }
  | _ => none

/-- The document of the settings. -/
def toJson (s : Settings) : Json :=
  .record [("index", s.index.toJson), ("kbo", s.order.toJson)]

/-- The settings in a text, unchecked. -/
def parse (text : String) : Except SettingsError Settings :=
  match (Json.read text).bind ofJson? with
  | some s => .ok s
  | none => .error .malformed

/-- The settings in a text, with its numbers checked. -/
def read (text : String) : Except SettingsError Settings := do
  let s ← parse text
  s.index.validate
  s.order.validate
  return s

/-- The ordering that a text of settings describes over a signature. -/
def readOrdering (text : String) (σ : Signature) : Except SettingsError KnuthBendix := do
  (← read text).order.ordering σ

end Settings

end SaturationCore
