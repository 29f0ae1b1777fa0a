import Pep9.Isa.Addressing
import Pep9.Isa.Mnemonic

/-
  Lines of a listing: instructions and declarations.

  Key definitions: `Mode`, `Operand`, `Instruction`,
  `Declaration`.
-/

namespace Pep9

namespace Listing

/-
  The addressing suffix of an instruction. Unary instructions
  and plain branches have none. `reserved` is a suffix code
  that listings do not use.
-/
inductive Mode where
  | none
  | immediate
  | direct
  | stackRelative
  | indexed
  | stackIndexed
  | stackDeferredIndexed
  | reserved (code : Int)
deriving DecidableEq, Repr

namespace Mode

def table : List Mode :=
  [none, immediate, direct, stackRelative, indexed, stackIndexed,
    stackDeferredIndexed]

/- The suffix with a given code, counted from zero. -/
def ofCode (code : Int) : Mode :=
  if code < 0 then
    reserved code
  else
    table.getD code.toNat (reserved code)

def code : Mode → Int
  | none => 0
  | immediate => 1
  | direct => 2
  | stackRelative => 3
  | indexed => 4
  | stackIndexed => 5
  | stackDeferredIndexed => 6
  | reserved code => code

def text : Mode → String
  | none => ""
  | immediate => "i"
  | direct => "d"
  | stackRelative => "s"
  | indexed => "x"
  | stackIndexed => "sx"
  | stackDeferredIndexed => "sfx"
  | reserved code => "Mode(" ++ toString code ++ ")"

/- The suffix with a given text, which is not empty. -/
def ofText? (s : String) : Option Mode :=
  if s = "" then
    Option.none
  else
    table.find? fun mode => mode.text = s

/- The addressing mode of the machine that a suffix stands for. -/
def addressing? : Mode → Option Isa.Addressing
  | none => Option.none
  | immediate => some .immediate
  | direct => some .direct
  | stackRelative => some .stackRelative
  | indexed => some .indexed
  | stackIndexed => some .stackIndexed
  | stackDeferredIndexed => some .stackDeferredIndexed
  | reserved _ => Option.none

/- Suffixes that add the index register to an address. -/
def isIndexed : Mode → Bool
  | indexed => true
  | stackIndexed => true
  | stackDeferredIndexed => true
  | _ => false

end Mode

/-
  The operation of an instruction: one that the machine
  has, or any other word.
-/
inductive Operation where
  | known (mnemonic : Isa.Mnemonic)
  | other (word : String)
deriving DecidableEq, Repr

namespace Operation

def text : Operation → String
  | known mnemonic => mnemonic.name
  | other word => word

def ofText (s : String) : Operation :=
  match Isa.Mnemonic.ofName? s with
  | some mnemonic => known mnemonic
  | none => other s

end Operation

inductive Operand where
  | absent
  | number (value : Int64)
  | symbol (name : String)
deriving DecidableEq

def Operand.text : Operand → String
  | absent => ""
  | number value => toString value
  | symbol name => name

/- An instruction. Its label is empty when it has none. -/
structure Instruction where
  label : String
  op : Operation
  operand : Operand
  mode : Mode
deriving DecidableEq

namespace Instruction

def of (mnemonic : Isa.Mnemonic) (operand : Operand)
    (mode : Mode) : Instruction where
  label := ""
  op := .known mnemonic
  operand := operand
  mode := mode

def plain (mnemonic : Isa.Mnemonic) : Instruction :=
  of mnemonic .absent .none

def jump (mnemonic : Isa.Mnemonic) (target : String) : Instruction :=
  of mnemonic (.symbol target) .none

def labelled (label : String) (i : Instruction) : Instruction :=
  { i with label := label }

def text (i : Instruction) : String :=
  let operand := i.operand.text
  if operand = "" then
    i.op.text
  else if i.mode = .none then
    i.op.text ++ " " ++ operand
  else
    i.op.text ++ " " ++ operand ++ "," ++ i.mode.text

def describe (i : Instruction) : String :=
  if i.label = "" then
    i.text
  else
    i.label ++ ": " ++ i.text

end Instruction

/-
  What a declaration does with its number: give it a name,
  store it in a word, or reserve as many bytes.
-/
inductive Directive where
  | equate
  | word
  | block
  | other (text : String)
deriving DecidableEq, Repr

namespace Directive

def text : Directive → String
  | equate => ".EQUATE"
  | word => ".WORD"
  | block => ".BLOCK"
  | other text => text

def ofText (s : String) : Directive :=
  if s = ".EQUATE" then
    equate
  else if s = ".WORD" then
    word
  else if s = ".BLOCK" then
    block
  else
    other s

end Directive

/- A name for a number or for storage. -/
structure Declaration where
  name : String
  directive : Directive
  value : Int64
deriving DecidableEq

namespace Declaration

def text (d : Declaration) : String :=
  d.directive.text ++ " " ++ toString d.value

def describe (d : Declaration) : String :=
  d.name ++ ": " ++ d.text

end Declaration

end Listing

end Pep9
