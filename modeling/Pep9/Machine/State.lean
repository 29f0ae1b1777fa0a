/-
  The state of the machine: two working registers, a stack
  pointer, a program counter, four status bits and a memory
  of 65536 bytes, together with the input that is still
  unread and the output so far.

  Key definitions: `Memory`, `Flags`, `Machine`, `initial`.
-/

namespace Pep9

namespace Machine

def memorySize : Nat :=
  65536

/- Memory: one byte at each address of sixteen bits. -/
structure Memory where
  bytes : Vector UInt8 memorySize

namespace Memory

def zeros : Memory where
  bytes := Vector.replicate memorySize 0

def byte (memory : Memory) (address : UInt16) : UInt8 :=
  memory.bytes.get ⟨address.toNat, address.toNat_lt⟩

def setByte (memory : Memory) (address : UInt16) (value : UInt8) : Memory where
  bytes := memory.bytes.set address.toNat value address.toNat_lt

/-
  The word at an address, its high byte first. The address
  after the last one is the first one.
-/
def word (memory : Memory) (address : UInt16) : UInt16 :=
  ((memory.byte address).toUInt16 <<< 8)
    ||| (memory.byte (address + 1)).toUInt16

def setWord (memory : Memory) (address : UInt16) (value : UInt16) : Memory :=
  (memory.setByte address (value >>> 8).toUInt8).setByte
    (address + 1) value.toUInt8

def setBytes (memory : Memory) (address : UInt16) : List UInt8 → Memory
  | [] => memory
  | value :: rest =>
      (memory.setByte address value).setBytes (address + 1) rest

def range (memory : Memory) (address : UInt16) (length : Nat) : List UInt8 :=
  (List.range length).map fun i => memory.byte (address + UInt16.ofNat i)

end Memory

/- The status bits: negative, zero, overflow and carry. -/
structure Flags where
  n : Bool
  z : Bool
  v : Bool
  c : Bool
deriving DecidableEq, Repr

namespace Flags

def clear : Flags where
  n := false
  z := false
  v := false
  c := false

/- The status bits with sign and zero taken from a word. -/
def ofWord (flags : Flags) (w : UInt16) : Flags :=
  { flags with
    n := w &&& 0x8000 ≠ 0
    z := w = 0 }

end Flags

end Machine

/-
  A state of the machine. `steps` counts the instructions
  since a program was loaded.
-/
structure Machine where
  a : UInt16
  x : UInt16
  sp : UInt16
  pc : UInt16
  flags : Machine.Flags
  memory : Machine.Memory
  halted : Bool
  steps : Int64
  input : List Char
  output : String

namespace Machine

def stackTop : UInt16 :=
  0xFB8F

/- The state before anything is loaded. -/
def initial (input : String) : Machine where
  a := 0
  x := 0
  sp := stackTop
  pc := 0
  flags := .clear
  memory := .zeros
  halted := false
  steps := 0
  input := input.toList
  output := ""

instance : Inhabited Machine := ⟨initial ""⟩

/- The state after some text has been printed. -/
def print (m : Machine) (text : String) : Machine :=
  { m with output := m.output ++ text }

end Machine

end Pep9
