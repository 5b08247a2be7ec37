/-
# Terms as text

A term can be given as the names of its heads in prefix order, with blanks between
them. A vocabulary says which symbol a name stands for. Names of the form `X3` and
`X3@1` are variables and come first, `^X3` binds a variable, and `g*4` stands for
four times `g`.

Nothing is said here about whether the heads spell a term.
-/
import SaturationCore.Signature

namespace SaturationCore

/-- The number that digits spell, of which there has to be one at least. -/
def numberOfDigits? (cs : List Char) : Option Nat :=
  if !cs.isEmpty && cs.all Char.isDigit then
    some (cs.foldl (fun n c => 10 * n + (c.toNat - 48)) 0)
  else none

namespace Variable

/-- Numbers of variables have 32 bits. -/
def indexLimit : Nat := 1 <<< 32

/-- The variable that a text names. Without a bank it is of the first one. -/
def ofText? (cs : List Char) : Option Variable :=
  match cs with
  | 'X' :: rest => do
    let index ← numberOfDigits? (rest.takeWhile (· != '@'))
    let bank ← match rest.dropWhile (· != '@') with
      | [] => some 0
      | _ :: digits => numberOfDigits? digits
    if index < indexLimit ∧ bank < Signature.bankLimit then some ⟨bank, index⟩ else none
  | _ => none

end Variable

/-- The symbols that names stand for. Of several entries of a name the first counts. -/
structure Vocabulary where
  entries : List (String × Symbol)

namespace Vocabulary

/-- The vocabulary in which every declared name stands for its symbol. -/
def ofSignature (σ : Signature) : Vocabulary :=
  ⟨σ.declarations.toList.map fun d => (d.name, d.symbol)⟩

/-- Let a name stand for a symbol, whatever it stood for before. -/
def assign (w : Vocabulary) (name : String) (s : Symbol) : Vocabulary :=
  ⟨(name, s) :: w.entries⟩

/-- The symbol that a name stands for. -/
def symbol? (w : Vocabulary) (name : String) : Option Symbol :=
  w.entries.lookup name

/-- The binder that a text names. -/
def binder? (cs : List Char) : Option Variable :=
  match cs with
  | '^' :: rest => Variable.ofText? rest
  | _ => none

/-- The head that a text names. -/
def head? (w : Vocabulary) (cs : List Char) : Option Head :=
  match Variable.ofText? cs, binder? cs with
  | some v, _ => some (.var v)
  | none, some v => some (.binder v)
  | none, none => (w.symbol? (String.ofList cs)).map .symbol

/-- A name and how often it is meant: as often as the number behind its star says,
or else once. -/
def repetition (cs : List Char) : List Char × Nat :=
  let reversed := cs.reverse
  match numberOfDigits? (reversed.takeWhile Char.isDigit).reverse,
    reversed.dropWhile Char.isDigit with
  | some n, '*' :: c :: base => ((c :: base).reverse, n)
  | _, _ => (cs, 1)

/-- The heads that a text names, one behind the other. -/
def heads? (w : Vocabulary) (text : String) : Option (List Head) := do
  let names := (text.splitOn " ").filter (!·.isEmpty)
  let runs ← names.mapM fun name => do
    let (base, n) := repetition name.toList
    return List.replicate n (← w.head? base)
  return runs.flatten

end Vocabulary

end SaturationCore
