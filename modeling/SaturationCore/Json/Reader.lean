/-
# Reading JSON

The reader accepts exactly one document in strict grammar, with blanks around its
parts: no comments, no trailing commas, no leading zeros, no bare control
characters in strings.
-/
import SaturationCore.Json.Document

namespace SaturationCore

namespace Json

/-- The four characters that may stand between the parts of a document. -/
def isBlank (c : Char) : Bool :=
  c == ' ' || c == '\n' || c == '\t' || c == '\r'

/-- The text from its first character that is no blank. -/
def skipBlanks (cs : List Char) : List Char :=
  cs.dropWhile isBlank

/-- The number that some digits stand for. -/
def numberOf (digits : List Char) : Nat :=
  digits.foldl (fun n c => 10 * n + (c.toNat - 48)) 0

/-- A run of at least one digit. -/
def readDigits (cs : List Char) : Option (List Char × List Char) :=
  match cs.takeWhile Char.isDigit with
  | [] => none
  | digits => some (digits, cs.dropWhile Char.isDigit)

/-- A run of digits that starts with zero only if that is all of it. -/
def readWhole : List Char → Option (List Char × List Char)
  | '0' :: rest => some (['0'], rest)
  | cs => readDigits cs

/-- The fraction of a numeral, if there is one. -/
def readFraction : List Char → Option (List Char × List Char)
  | '.' :: rest => (readDigits rest).map fun (digits, rest) => ('.' :: digits, rest)
  | cs => some ([], cs)

/-- The sign of an exponent, if there is one. -/
def readSign : List Char → List Char × List Char
  | '+' :: rest => (['+'], rest)
  | '-' :: rest => (['-'], rest)
  | cs => ([], cs)

/-- The exponent of a numeral, if there is one. -/
def readExponent : List Char → Option (List Char × List Char)
  | c :: rest =>
    if c == 'e' || c == 'E' then
      let (sign, rest) := readSign rest
      (readDigits rest).map fun (digits, rest) => (c :: (sign ++ digits), rest)
    else some ([], c :: rest)
  | [] => some ([], [])

/-- A numeral. It stands for an integer unless it has a fraction or an exponent or
is a negative zero. -/
def readNumeral (cs : List Char) : Option (Json × List Char) := do
  let (negative, cs) := match cs with
    | '-' :: rest => (true, rest)
    | cs => (false, cs)
  let (whole, cs) ← readWhole cs
  let (fraction, cs) ← readFraction cs
  let (exponent, cs) ← readExponent cs
  let n := numberOf whole
  if fraction.isEmpty && exponent.isEmpty && !(negative && n == 0) then
    return (integer (if negative then -n else n), cs)
  else
    let sign := if negative then ['-'] else []
    return (decimal (String.ofList (sign ++ whole ++ fraction ++ exponent)), cs)

/-- The value of a hexadecimal digit. -/
def hexValue? (c : Char) : Option Nat :=
  if c.isDigit then some (c.toNat - 48)
  else if 'a' ≤ c ∧ c ≤ 'f' then some (c.toNat - 87)
  else if 'A' ≤ c ∧ c ≤ 'F' then some (c.toNat - 55)
  else none

/-- The number that four hexadecimal digits stand for. -/
def hexUnit? (a b c d : Char) : Option Nat := do
  return ((16 * (← hexValue? a) + (← hexValue? b)) * 16 + (← hexValue? c)) * 16 +
    (← hexValue? d)

/-- What the letter of a short escape stands for. -/
def shortEscape? : Char → Option Char
  | '"' => some '"'
  | '\\' => some '\\'
  | '/' => some '/'
  | 'b' => some '\x08'
  | 'f' => some '\x0c'
  | 'n' => some '\n'
  | 'r' => some '\r'
  | 't' => some '\t'
  | _ => none

/-- A part of a string: a character, or a 16-bit unit given by an escape. -/
inductive StringPart where
  | char (c : Char)
  | unit (n : Nat)

/-- The parts of a string up to the closing quote, behind those already read, which
are kept newest first. -/
def readParts (parts : List StringPart) : List Char → Option (List StringPart × List Char)
  | '"' :: rest => some (parts.reverse, rest)
  | '\\' :: 'u' :: a :: b :: c :: d :: rest =>
    match hexUnit? a b c d with
    | some n => readParts (.unit n :: parts) rest
    | none => none
  | '\\' :: letter :: rest =>
    match shortEscape? letter with
    | some c => readParts (.char c :: parts) rest
    | none => none
  | c :: rest =>
    if c.toNat < 32 || c == '\\' then none else readParts (.char c :: parts) rest
  | [] => none

/-- The first unit of a surrogate pair. -/
def isHigh (n : Nat) : Bool := 0xD800 ≤ n && n < 0xDC00

/-- The second unit of a surrogate pair. -/
def isLow (n : Nat) : Bool := 0xDC00 ≤ n && n < 0xE000

/-- The characters that parts denote, behind those already known, which are kept
newest first. Half of a surrogate pair denotes none. -/
def joinParts (known : List Char) : List StringPart → Option (List Char)
  | [] => some known.reverse
  | .char c :: rest => joinParts (c :: known) rest
  | .unit n :: .unit m :: rest =>
    if isHigh n && isLow m then
      joinParts (Char.ofNat (0x10000 + 0x400 * (n - 0xD800) + (m - 0xDC00)) :: known) rest
    else if isHigh n || isLow n then none
    else joinParts (Char.ofNat n :: known) (.unit m :: rest)
  | .unit n :: rest =>
    if isHigh n || isLow n then none else joinParts (Char.ofNat n :: known) rest

/-- A string behind its opening quote. -/
def readString (cs : List Char) : Option (Option String × List Char) :=
  (readParts [] cs).map fun (parts, rest) => ((joinParts [] parts).map String.ofList, rest)

mutual

/-- A document, using at most `fuel` nested or successive parts. -/
def readValue : (fuel : Nat) → List Char → Option (Json × List Char)
  | 0, _ => none
  | fuel + 1, cs =>
    match skipBlanks cs with
    | 'n' :: 'u' :: 'l' :: 'l' :: rest => some (null, rest)
    | 't' :: 'r' :: 'u' :: 'e' :: rest => some (bool true, rest)
    | 'f' :: 'a' :: 'l' :: 's' :: 'e' :: rest => some (bool false, rest)
    | '"' :: rest => (readString rest).map fun (text, rest) => (string text, rest)
    | '[' :: rest =>
      match skipBlanks rest with
      | ']' :: rest => some (array [], rest)
      | rest => (readItems fuel rest).map fun (items, rest) => (array items, rest)
    | '\x7b' :: rest =>
      match skipBlanks rest with
      | '\x7d' :: rest => some (object [], rest)
      | rest => (readMembers fuel rest).map fun (members, rest) => (object members, rest)
    | rest => readNumeral rest

/-- At least one item, up to the closing bracket. -/
def readItems : (fuel : Nat) → List Char → Option (List Json × List Char)
  | 0, _ => none
  | fuel + 1, cs => do
    let (item, rest) ← readValue fuel cs
    match skipBlanks rest with
    | ']' :: rest => return ([item], rest)
    | ',' :: rest =>
      let (items, rest) ← readItems fuel rest
      return (item :: items, rest)
    | _ => none

/-- At least one member, up to the closing brace. -/
def readMembers : (fuel : Nat) → List Char → Option (List (Option String × Json) × List Char)
  | 0, _ => none
  | fuel + 1, cs =>
    match skipBlanks cs with
    | '"' :: rest => do
      let (name, rest) ← readString rest
      match skipBlanks rest with
      | ':' :: rest =>
        let (value, rest) ← readValue fuel rest
        match skipBlanks rest with
        | '\x7d' :: rest => return ([(name, value)], rest)
        | ',' :: rest =>
          let (members, rest) ← readMembers fuel rest
          return ((name, value) :: members, rest)
        | _ => none
      | _ => none
    | _ => none

end

/-- The document that a text consists of. Every two parts take at least one
character, which bounds their number. -/
def read (text : String) : Option Json :=
  let cs := text.toList
  match readValue (2 * cs.length + 2) cs with
  | some (j, rest) => if (skipBlanks rest).isEmpty then some j else none
  | none => none

end Json

end SaturationCore
