/-
# JSON documents

A document is what a JSON text says, as far as any reader here can tell it from
another: integers are kept apart from other numerals, and members of objects keep
their order and repetitions.

A string may spell half of a surrogate pair by an escape. It is then grammatical
but denotes no text, and takes its place as `none`.
-/

namespace SaturationCore

/-- A JSON document. -/
inductive Json where
  | null
  | bool (b : Bool)
  /-- A numeral without fraction and exponent, and not a negative zero. -/
  | integer (n : Int)
  /-- Any other numeral, as written. -/
  | decimal (numeral : String)
  | string (text : Option String)
  | array (items : List Json)
  | object (members : List (Option String × Json))

namespace Json

/-- A string that denotes a text. -/
def text (s : String) : Json := string (some s)

/-- A natural number. -/
def nat (n : Nat) : Json := integer n

/-- A document, or `null`. -/
def optional : Option Json → Json
  | some j => j
  | none => null

/-- A sequence of documents of one form. -/
def list {α : Type} (form : α → Json) (items : List α) : Json := array (items.map form)

/-- An object with the given members. -/
def record (members : List (String × Json)) : Json :=
  object (members.map fun (name, j) => (some name, j))

end Json

end SaturationCore
