/-
# Forms of documents

Values are read from documents by a few general rules. A record is an object whose
known members appear at most once and whose other members are ignored, or an array
of the members in order, of which some at the end may be missing. A variant is a
name alone, or an object with the name as its only member. A number is an integer
within its bounds.
-/
import SaturationCore.Json.Document

namespace SaturationCore

namespace Json

/-- A natural number below a bound. -/
def natBelow? (bound : Nat) : Json → Option Nat
  | integer n => if 0 ≤ n ∧ n < bound then some n.toNat else none
  | _ => none

/-- A truth value. -/
def bool? : Json → Option Bool
  | bool b => some b
  | _ => none

/-- A string that denotes a text. -/
def text? : Json → Option String
  | string text => text
  | _ => none

/-- The items of an array. -/
def items? : Json → Option (List Json)
  | array items => some items
  | _ => none

/-- The items of an array, each of some form. -/
def listOf? {α : Type} (form : Json → Option α) (j : Json) : Option (List α) := do
  (← j.items?).mapM form

/-- The members of an object whose names all denote texts. -/
def members? : Json → Option (List (String × Json))
  | object members => members.mapM fun (name, j) => name.map (·, j)
  | _ => none

/-- The member of an object with a given name. -/
def member? (name : String) (j : Json) : Option Json := do
  (← j.members?).lookup name

/-- The members of a record, in the order of the given names. -/
def record? (names : List String) (j : Json) : Option (List (Option Json)) :=
  match j with
  | array items =>
    if items.length ≤ names.length then
      some (items.map some ++ List.replicate (names.length - items.length) none)
    else none
  | _ => do
    let members ← j.members?
    if names.all fun name => members.countP (·.1 == name) ≤ 1 then
      return names.map (members.lookup ·)
    else none

/-- An object that maps names to values of some form. Of a repeated name the last
value counts. -/
def mapOf? {α : Type} (form : Json → Option α) (j : Json) : Option (List (String × α)) := do
  let members ← j.members?
  let entries ← members.mapM fun (name, j) => (form j).map (name, ·)
  return entries.foldl
    (fun kept (name, a) => kept.filter (·.1 != name) ++ [(name, a)]) []

/-- A name out of several, alone or with `null`. -/
def name? {α : Type} (named : String → Option α) : Json → Option α
  | string (some name) => named name
  | object [(some name, null)] => named name
  | _ => none

end Json

end SaturationCore
