/-
# Writing JSON

Documents are written without blanks. In strings only quotes, backslashes and
control characters are escaped.
-/
import SaturationCore.Json.Document

namespace SaturationCore

namespace Json

/-- The digit of a number below sixteen. -/
def hexDigit (n : Nat) : Char :=
  if n < 10 then Char.ofNat (48 + n) else Char.ofNat (87 + n)

/-- A character inside a string. -/
def escape (c : Char) : String :=
  if c = '"' then "\\\""
  else if c = '\\' then "\\\\"
  else if c.toNat < 32 then
    "\\u00" ++ (hexDigit (c.toNat / 16)).toString ++ (hexDigit (c.toNat % 16)).toString
  else c.toString

/-- A string behind `written`. What denotes no text is written as the replacement
character. -/
def writeString (written : String) (text : Option String) : String :=
  let body := (text.getD "\ufffd").toList.foldl (fun written c => written ++ escape c)
    (written ++ "\"")
  body ++ "\""

mutual

/-- A document behind `written`. -/
def writeOnto (written : String) : Json → String
  | null => written ++ "null"
  | bool b => written ++ (if b then "true" else "false")
  | integer n => written ++ toString n
  | decimal numeral => written ++ numeral
  | string text => writeString written text
  | array items => writeItems (written ++ "[") "" items ++ "]"
  | object members => writeMembers (written ++ "\x7b") "" members ++ "\x7d"

/-- Items behind `written`, each behind a separator that is a comma from the second
on. -/
def writeItems (written separator : String) : List Json → String
  | [] => written
  | j :: rest => writeItems (writeOnto (written ++ separator) j) "," rest

/-- Members behind `written`, separated in the same way. -/
def writeMembers (written separator : String) : List (Option String × Json) → String
  | [] => written
  | (name, j) :: rest =>
    writeMembers (writeOnto (writeString (written ++ separator) name ++ ":") j) "," rest

end

/-- The text of a document. -/
def write (j : Json) : String :=
  writeOnto "" j

end Json

end SaturationCore
