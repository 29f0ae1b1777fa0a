import Pep9.Isa.Mnemonic
import Pep9.Text.Blank
import Pep9.Text.Letter
import Pep9.Text.Numeral
import Pep9.Text.Uppercase

/-
  Lines of assembly text. A line has an optional label that
  ends in a colon, and an optional statement: a word and its
  operands, set apart by blanks and commas. What follows a
  semicolon is a comment.

  Key definitions: `Statement`, `Line`, `Line.parse`,
  `readWord?`.
-/

namespace Pep9

namespace Assembly

/-
  What a line asks for. `finish` ends the text, `equate`
  names a number, `word` and `block` lay out storage.
-/
inductive Statement where
  | empty
  | finish
  | equate (operands : List String)
  | word (operands : List String)
  | block (operands : List String)
  | instruction (mnemonic : Isa.Mnemonic) (operands : List String)
  | unknown (name : String)
deriving DecidableEq, Repr

/- A line: its label and its statement. -/
structure Line where
  label : Option String
  statement : Statement
deriving DecidableEq, Repr

inductive LabelFault where
  | missing
  | malformed (label : String)
deriving DecidableEq, Repr

def startsSymbol (c : Char) : Bool :=
  Text.isLetter c || c = '_'

/- A character that may stand inside a symbol. -/
def continuesSymbol (c : Char) : Bool :=
  Text.isLetter c || Text.isDecimalDigit c || c = '_'

def isSymbol (s : String) : Bool :=
  match s.toList with
  | [] => false
  | c :: rest => startsSymbol c && rest.all continuesSymbol

/-
  The word that a numeral stands for. Negative numbers are
  written in two's complement.
-/
def readWord? (s : String) : Option UInt16 :=
  match Text.Numeral.readInt 32 s.toList with
  | .error _ => none
  | .ok n =>
      if n < -32768 ∨ n > 65535 then
        none
      else
        some (UInt16.ofInt n)

def Statement.ofWords (name : String) (operands : List String) : Statement :=
  if name = ".END" then
    .finish
  else if name = ".EQUATE" then
    .equate operands
  else if name = ".WORD" then
    .word operands
  else if name = ".BLOCK" then
    .block operands
  else
    match Isa.Mnemonic.ofName? name with
    | some mnemonic => .instruction mnemonic operands
    | none => .unknown name

def Statement.parse (s : String) : Statement :=
  match Text.fields (s.map fun c => if c = ',' then ' ' else c) with
  | [] => .empty
  | name :: operands => .ofWords (Text.upper name) operands

namespace Line

/- The part of a line before its comment, trimmed. -/
def uncommented (raw : String) : String :=
  Text.trim (String.ofList (raw.toList.takeWhile (· ≠ ';')))

def parse (raw : String) : Except LabelFault Line :=
  let cs := (uncommented raw).toList
  let before := cs.takeWhile (· ≠ ':')
  match cs.dropWhile (· ≠ ':') with
  | [] => .ok ⟨none, .parse (String.ofList cs)⟩
  | _ :: rest =>
      if before.isEmpty then
        .error .missing
      else
        let label := Text.trim (String.ofList before)
        if isSymbol label then
          .ok ⟨some label, .parse (String.ofList rest)⟩
        else
          .error (.malformed label)

def isEmpty (line : Line) : Bool :=
  line.label = none && line.statement = .empty

end Line

end Assembly

end Pep9
