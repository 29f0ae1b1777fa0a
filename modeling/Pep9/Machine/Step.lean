import Pep9.Isa.Addressing
import Pep9.Isa.Mnemonic
import Pep9.Machine.Arithmetic
import Pep9.Machine.DecimalInput

/-
  The execution of one instruction.

  Key definitions: `Fault`, `address`, `operand`, `fetch`,
  `execute`, `step`.
-/

namespace Pep9

open Isa (Mnemonic Addressing)

namespace Machine

/-
  Why a run stops before its end. Faults of an instruction
  have its address.
-/
inductive Fault where
  | illegalInstruction (code : UInt8) (address : UInt16)
  | noInput (address : UInt16)
  | badInput (address : UInt16) (fault : InputFault)
  | stepLimit (steps : Int64)
deriving DecidableEq, Repr

def Fault.message : Fault → String
  | .illegalInstruction code address =>
      "illegal instruction 0x" ++ Text.upperHex 2 code.toNat
        ++ " at 0x" ++ Text.upperHex 4 address.toNat
  | .noInput address =>
      "DECI: no input at 0x" ++ Text.upperHex 4 address.toNat
  | .badInput address fault =>
      "DECI at 0x" ++ Text.upperHex 4 address.toNat ++ ": " ++ fault.message
  | .stepLimit steps =>
      "step limit reached after " ++ toString steps ++ " instructions"

/- The fault of an instruction whose number cannot be read. -/
def Fault.ofInput (address : UInt16) : InputFault → Fault
  | .ended => .noInput address
  | fault => .badInput address fault

/- The address of an operand that is not immediate. -/
def address (m : Machine) (spec : UInt16) : Addressing → UInt16
  | .immediate => spec
  | .direct => spec
  | .indirect => m.memory.word spec
  | .stackRelative => m.sp + spec
  | .stackDeferred => m.memory.word (m.sp + spec)
  | .indexed => spec + m.x
  | .stackIndexed => m.sp + spec + m.x
  | .stackDeferredIndexed => m.memory.word (m.sp + spec) + m.x

def operand (m : Machine) (spec : UInt16) (mode : Addressing) : UInt16 :=
  if mode = .immediate then
    spec
  else
    m.memory.word (m.address spec mode)

/-
  An instruction as it stands in memory: its address, its
  first byte and the word behind it.
-/
structure Fetched where
  address : UInt16
  code : UInt8
  spec : UInt16
deriving DecidableEq, Repr

namespace Fetched

def mnemonic (i : Fetched) : Mnemonic :=
  .ofOpcode i.code

/- The addressing mode of an instruction in general form. -/
def mode (i : Fetched) : Addressing :=
  .ofField i.code

/- Whether a branch takes its target from memory. -/
def isIndexed (i : Fetched) : Bool :=
  i.code &&& 1 = 1

/- The bytes of an instruction: one, or three with an operand. -/
def length (i : Fetched) : Nat :=
  if Mnemonic.formOf i.code = .unary then 1 else 3

def illegal (i : Fetched) : Fault :=
  .illegalInstruction i.code i.address

end Fetched

/- The instruction at the program counter. -/
def fetch (m : Machine) : Fetched where
  address := m.pc
  code := m.memory.byte m.pc
  spec := m.memory.word (m.pc + 1)

def advance (m : Machine) (i : Fetched) : Machine :=
  { m with
    pc := m.pc + UInt16.ofNat i.length
    steps := m.steps + 1 }

/- The state with a register and the status bits changed. -/
def setA (m : Machine) (result : UInt16 × Flags) : Machine :=
  { m with a := result.1, flags := result.2 }

/- The same for the index register. -/
def setX (m : Machine) (result : UInt16 × Flags) : Machine :=
  { m with x := result.1, flags := result.2 }

/- The same for the stack pointer. -/
def setSP (m : Machine) (result : UInt16 × Flags) : Machine :=
  { m with sp := result.1, flags := result.2 }

/- A word with the status bits that it sets on its own. -/
def loaded (m : Machine) (w : UInt16) : UInt16 × Flags :=
  (w, m.flags.ofWord w)

/-
  Executes a unary instruction. The machine does not have
  those that return from a trap, rotate a register or take
  the status bits as a word.
-/
def executeUnary (m : Machine) (i : Fetched) : Machine × Option Fault :=
  match i.mnemonic with
  | .stop => ({ m with halted := true }, none)
  | .ret => ({ m with pc := m.memory.word m.sp, sp := m.sp + 2 }, none)
  | .movspa => ({ m with a := m.sp }, none)
  | .nota => (m.setA (m.loaded (~~~m.a)), none)
  | .notx => (m.setX (m.loaded (~~~m.x)), none)
  | .nega => (m.setA (negate m.flags m.a), none)
  | .negx => (m.setX (negate m.flags m.x), none)
  | .asla => (m.setA (shiftLeft m.a), none)
  | .aslx => (m.setX (shiftLeft m.x), none)
  | .asra => (m.setA (shiftRight m.flags m.a), none)
  | .asrx => (m.setX (shiftRight m.flags m.x), none)
  | .nop0 => (m, none)
  | .nop1 => (m, none)
  | _ => (m, some i.illegal)

def Flags.takes (flags : Flags) : Mnemonic → Bool
  | .br => true
  | .brle => flags.n || flags.z
  | .brlt => flags.n
  | .breq => flags.z
  | .brne => !flags.z
  | .brge => !flags.n
  | .brgt => !flags.n && !flags.z
  | .brv => flags.v
  | .brc => flags.c
  | .call => true
  | _ => false

def target (m : Machine) (i : Fetched) : UInt16 :=
  if i.isIndexed then
    m.memory.word (i.spec + m.x)
  else
    i.spec

/- The state with the program counter on the stack. -/
def pushPC (m : Machine) : Machine :=
  { m with
    sp := m.sp - 2
    memory := m.memory.setWord (m.sp - 2) m.pc }

def executeBranch (m : Machine) (i : Fetched) : Machine × Option Fault :=
  let goal := m.target i
  match i.mnemonic with
  | .call => ({ m.pushPC with pc := goal }, none)
  | .br | .brle | .brlt | .breq | .brne | .brge | .brgt | .brv | .brc =>
      (if m.flags.takes i.mnemonic then { m with pc := goal } else m, none)
  | _ => (m, some i.illegal)

/-
  Reads a number into a word of memory. A number that does
  not fit is cut, and sets the overflow bit.
-/
def decimalIn (m : Machine) (i : Fetched) : Machine × Option Fault :=
  match readNumber m.input with
  | (.error fault, rest) =>
      ({ m with input := rest }, some (.ofInput i.address fault))
  | (.ok n, rest) =>
      let w := UInt16.ofInt n
      let goal := m.address i.spec i.mode
      ({ m with
          input := rest
          flags :=
            { m.flags.ofWord w with v := decide (n < -32768 ∨ n > 32767) }
          memory := m.memory.setWord goal w },
        none)

def store (m : Machine) (i : Fetched) (w : UInt16) : Machine × Option Fault :=
  if i.mode = .immediate then
    (m, some i.illegal)
  else
    ({ m with memory := m.memory.setWord (m.address i.spec i.mode) w }, none)

/-
  Executes an instruction in general form. The machine does
  not have those on single bytes and on texts, and never
  writes to an immediate operand.
-/
def executeGeneral (m : Machine) (i : Fetched) : Machine × Option Fault :=
  let value := m.operand i.spec i.mode
  match i.mnemonic with
  | .nop => (m, none)
  | .deci => if i.mode = .immediate then (m, some i.illegal) else m.decimalIn i
  | .deco => (m.print (toString (signed value)), none)
  | .hexo => (m.print (Text.upperHex 4 value.toNat), none)
  | .addsp => (m.setSP (add m.sp value 0), none)
  | .subsp => (m.setSP (subtract m.sp value), none)
  | .adda => (m.setA (add m.a value 0), none)
  | .addx => (m.setX (add m.x value 0), none)
  | .suba => (m.setA (subtract m.a value), none)
  | .subx => (m.setX (subtract m.x value), none)
  | .anda => (m.setA (m.loaded (m.a &&& value)), none)
  | .andx => (m.setX (m.loaded (m.x &&& value)), none)
  | .ora => (m.setA (m.loaded (m.a ||| value)), none)
  | .orx => (m.setX (m.loaded (m.x ||| value)), none)
  | .cpwa => ({ m with flags := compare m.a value }, none)
  | .cpwx => ({ m with flags := compare m.x value }, none)
  | .ldwa => (m.setA (m.loaded value), none)
  | .ldwx => (m.setX (m.loaded value), none)
  | .stwa => m.store i m.a
  | .stwx => m.store i m.x
  | _ => (m, some i.illegal)

/-
  Executes an instruction behind which the program counter
  stands already.
-/
def execute (m : Machine) (i : Fetched) : Machine × Option Fault :=
  match Mnemonic.formOf i.code with
  | .unary => m.executeUnary i
  | .branch => m.executeBranch i
  | .general => m.executeGeneral i

/-
  Executes the instruction at the program counter. A machine
  that has halted stays as it is.
-/
def step (m : Machine) : Machine × Option Fault :=
  if m.halted then
    (m, none)
  else
    let i := m.fetch
    (m.advance i).execute i

end Machine

end Pep9
