import Pep9.Assembly.Line
import Pep9.Assembly.Symbols
import Pep9.Isa.Addressing

/-
  Assembly of a text into object code. A first pass gives
  each label an address, and a second one encodes the
  statements. Symbols outlive a text: those of earlier texts
  stay known, also when a text is refused.

  Key definitions: `Error`, `Plan`, `firstPass`, `encode`,
  `secondPass`, `assemble`.
-/

namespace Pep9

namespace Assembly

inductive Cause where
  | label (fault : LabelFault)
  | afterEnd
  | longSymbol (name : String)
  | duplicateSymbol (name : String)
  | equateShape
  | equateValue (text : String)
  | wordShape
  | blockShape
  | blockSize (text : String)
  | unknownInstruction (name : String)
  | tooLarge
  | operandsOfUnary (mnemonic : Isa.Mnemonic)
  | operandsOfBranch (mnemonic : Isa.Mnemonic)
  | operandsOfGeneral (mnemonic : Isa.Mnemonic)
  | unknownMode (text : String)
  | illegalMode (text : String) (mnemonic : Isa.Mnemonic)
  | undefinedSymbol (name : String)
  | invalidOperand (text : String)
deriving DecidableEq, Repr

/- Why a text is refused. Lines count from one. -/
inductive Error where
  | missingEnd
  | atLine (line : Nat) (cause : Cause)
deriving DecidableEq, Repr

/- The longest symbol in bytes of UTF-8. -/
def longestSymbol : Nat :=
  8

/- The number of bytes that can be addressed. -/
def addressSpace : Nat :=
  0x10000

def Cause.message (cause : Cause) (line : Nat) : String :=
  let place := "on line " ++ toString line
  match cause with
  | .label .missing => "invalid label " ++ place
  | .label (.malformed text) => "invalid label '" ++ text ++ "' " ++ place
  | .afterEnd => "statement after .END " ++ place
  | .longSymbol name =>
      "symbol '" ++ name ++ "' " ++ place ++ " is longer than "
        ++ toString longestSymbol ++ " characters"
  | .duplicateSymbol name => "duplicate symbol '" ++ name ++ "' " ++ place
  | .equateShape => ".EQUATE needs one symbol and one operand " ++ place
  | .equateValue text => "invalid .EQUATE value " ++ place ++ ": " ++ text
  | .wordShape => ".WORD expects exactly one operand " ++ place
  | .blockShape => ".BLOCK expects exactly one operand " ++ place
  | .blockSize text => "invalid .BLOCK size " ++ place ++ ": " ++ text
  | .unknownInstruction name => "unknown instruction " ++ place ++ ": " ++ name
  | .tooLarge => "program too large near line " ++ toString line
  | .operandsOfUnary m => m.name ++ " expects 0 operands " ++ place
  | .operandsOfBranch m => m.name ++ " expects 1 operand " ++ place
  | .operandsOfGeneral m =>
      m.name ++ " expects an operand and an addressing mode " ++ place
  | .unknownMode text => "invalid addressing mode '" ++ text ++ "' " ++ place
  | .illegalMode text m =>
      "illegal addressing mode '" ++ text ++ "' for " ++ m.name ++ " " ++ place
  | .undefinedSymbol name => "undefined symbol '" ++ name ++ "' " ++ place
  | .invalidOperand text => "invalid operand '" ++ text ++ "' " ++ place

def Error.message : Error → String
  | .missingEnd => "missing .END"
  | .atLine line cause => cause.message line

structure NumberedLine where
  number : Nat
  content : Except LabelFault Line

/- The lines of a text, counted from one. -/
def numberedLines (text : String) : List NumberedLine :=
  (Text.lines text).zipIdx.map fun (raw, i) => ⟨i + 1, Line.parse raw⟩

/-
  The state of the first pass: the symbols so far, the next
  address, and whether the text has ended.
-/
structure Plan where
  symbols : Symbols
  address : Nat
  ended : Bool
deriving DecidableEq, Repr

namespace Plan

def start (symbols : Symbols) : Plan where
  symbols := symbols
  address := 0
  ended := false

def bindLabel (plan : Plan) : Option String → Except Cause Plan
  | none => .ok plan
  | some label =>
      if label.utf8ByteSize > longestSymbol then
        .error (.longSymbol label)
      else if (plan.symbols.lookup? label).isSome then
        .error (.duplicateSymbol label)
      else
        .ok
          { plan with
            symbols := plan.symbols.set label (UInt16.ofNat plan.address) }

def take (plan : Plan) (bytes : Nat) : Except Cause Plan :=
  if plan.address + bytes > addressSpace then
    .error .tooLarge
  else
    .ok { plan with address := plan.address + bytes }

/- Lays out a statement whose label, if any, is bound. -/
def takeStatement (plan : Plan)
    (label : Option String) : Statement → Except Cause Plan
  | .empty => .ok plan
  | .finish => .ok { plan with ended := true }
  | .equate operands =>
      match label, operands with
      | some name, [operand] =>
          match readWord? operand with
          | some value =>
              .ok { plan with symbols := plan.symbols.set name value }
          | none => .error (.equateValue operand)
      | _, _ => .error .equateShape
  | .word operands =>
      if operands.length = 1 then
        plan.take 2
      else
        .error .wordShape
  | .block operands =>
      match operands with
      | [operand] =>
          match readWord? operand with
          | some size => plan.take size.toNat
          | none => .error (.blockSize operand)
      | _ => .error .blockShape
  | .instruction mnemonic _ => plan.take mnemonic.length
  | .unknown name => .error (.unknownInstruction name)

/-
  Lays out a line. On an error the state still has what the
  line did before it.
-/
def takeLine (plan : Plan) (line : Line) : Plan × Option Cause :=
  if line.isEmpty then
    (plan, none)
  else if plan.ended then
    (plan, some .afterEnd)
  else
    match plan.bindLabel line.label with
    | .error cause => (plan, some cause)
    | .ok bound =>
        match bound.takeStatement line.label line.statement with
        | .error cause => (bound, some cause)
        | .ok next => (next, none)

end Plan

/-
  Lays out the lines of a text. The symbols stand also when
  there is an error.
-/
def firstPass (plan : Plan) : List NumberedLine → Symbols × Option Error
  | [] =>
      (plan.symbols, if plan.ended then none else some .missingEnd)
  | line :: rest =>
      match line.content with
      | .error fault =>
          (plan.symbols, some (.atLine line.number (.label fault)))
      | .ok content =>
          match plan.takeLine content with
          | (next, none) => firstPass next rest
          | (next, some cause) =>
              (next.symbols, some (.atLine line.number cause))

/- The two bytes of a word, the high one first. -/
def bytesOfWord (w : UInt16) : List UInt8 :=
  [(w >>> 8).toUInt8, w.toUInt8]

/- The word that an operand stands for. -/
def resolve (symbols : Symbols) (operand : String) : Except Cause UInt16 :=
  match readWord? operand with
  | some value => .ok value
  | none =>
      match symbols.lookup? operand with
      | some value => .ok value
      | none =>
          if isSymbol operand then
            .error (.undefinedSymbol operand)
          else
            .error (.invalidOperand operand)

def branchField (mnemonic : Isa.Mnemonic)
    (mode : String) : Except Cause UInt8 :=
  if mode = Isa.Addressing.immediate.suffix then
    .ok 0
  else if mode = Isa.Addressing.indexed.suffix then
    .ok 1
  else
    .error (.illegalMode mode mnemonic)

/- The addressing field of an instruction in general form. -/
def generalField (mnemonic : Isa.Mnemonic)
    (mode : String) : Except Cause UInt8 :=
  match Isa.Addressing.ofSuffix? mode with
  | none => .error (.unknownMode mode)
  | some addressing =>
      if addressing = .immediate ∧ mnemonic.writesOperand then
        .error (.illegalMode mode mnemonic)
      else
        .ok addressing.field

def encodeWith (symbols : Symbols) (mnemonic : Isa.Mnemonic) (field : UInt8)
    (operand : String) : Except Cause (List UInt8) := do
  let value ← resolve symbols operand
  return (mnemonic.opcode ||| field) :: bytesOfWord value

def encodeInstruction (symbols : Symbols) (mnemonic : Isa.Mnemonic)
    (operands : List String) : Except Cause (List UInt8) :=
  match mnemonic.form, operands with
  | .unary, [] => .ok [mnemonic.opcode]
  | .unary, _ => .error (.operandsOfUnary mnemonic)
  | .branch, [operand] => encodeWith symbols mnemonic 0 operand
  | .branch, [operand, mode] => do
      encodeWith symbols mnemonic (← branchField mnemonic mode) operand
  | .branch, _ => .error (.operandsOfBranch mnemonic)
  | .general, [operand, mode] => do
      encodeWith symbols mnemonic (← generalField mnemonic mode) operand
  | .general, _ => .error (.operandsOfGeneral mnemonic)

/-
  The bytes of a statement. There are none where a statement
  takes no place in the object code.
-/
def encode (symbols : Symbols) : Statement → Except Cause (Option (List UInt8))
  | .empty => .ok none
  | .finish => .ok none
  | .equate _ => .ok none
  | .word operands =>
      match operands with
      | [operand] => do
          return some (bytesOfWord (← resolve symbols operand))
      | _ => .error .wordShape
  | .block operands =>
      match operands with
      | [operand] =>
          match readWord? operand with
          | some size => .ok (some (List.replicate size.toNat 0))
          | none => .error (.blockSize operand)
      | _ => .error .blockShape
  | .instruction mnemonic operands => do
      return some (← encodeInstruction symbols mnemonic operands)
  | .unknown name => .error (.unknownInstruction name)

structure Chunk where
  line : Nat
  bytes : List UInt8
deriving DecidableEq, Repr

def secondPass
    (symbols : Symbols) : List NumberedLine → Except Error (List Chunk)
  | [] => .ok []
  | line :: rest =>
      match line.content with
      | .error fault => .error (.atLine line.number (.label fault))
      | .ok content =>
          if content.statement = .finish then
            .ok []
          else
            match encode symbols content.statement with
            | .error cause => .error (.atLine line.number cause)
            | .ok none => secondPass symbols rest
            | .ok (some bytes) => do
                return ⟨line.number, bytes⟩ :: (← secondPass symbols rest)

/- Object code, in chunks of one line each. -/
structure Object where
  chunks : List Chunk
deriving DecidableEq, Repr

/-
  Assembles a text. The symbols are those known before it,
  and then those known after it.
-/
def assemble (symbols : Symbols)
    (text : String) : Symbols × Except Error Object :=
  let lines := numberedLines text
  match firstPass (.start symbols) lines with
  | (known, some error) => (known, .error error)
  | (known, none) =>
      match secondPass known lines with
      | .error error => (known, .error error)
      | .ok chunks => (known, .ok ⟨chunks⟩)

end Assembly

end Pep9
