import Pep9.Assembly.Assembler

/-
  Object code: its bytes, the lines that they come from, and
  its text.

  Key definitions: `Object.bytes`, `Object.sourceMap`,
  `format`.
-/

namespace Pep9

namespace Assembly

namespace Object

def bytes (object : Object) : List UInt8 :=
  object.chunks.flatMap fun chunk => chunk.bytes

/- The chunks from an address on, each with its address. -/
def placed (address : Nat) : List Chunk → List (UInt16 × Nat)
  | [] => []
  | chunk :: rest =>
      (UInt16.ofNat address, chunk.line)
        :: placed (address + chunk.bytes.length) rest

/- Of entries with one address in a row, the last. -/
def lastOfEach : List (UInt16 × Nat) → List (UInt16 × Nat)
  | [] => []
  | [entry] => [entry]
  | entry :: next :: rest =>
      if entry.1 = next.1 then
        lastOfEach (next :: rest)
      else
        entry :: lastOfEach (next :: rest)

/-
  The line at each address at which a line starts, in the
  order of addresses. A later line hides an earlier one.
-/
def sourceMap (object : Object) : List (UInt16 × Nat) :=
  lastOfEach ((placed 0 object.chunks).mergeSort fun a b => a.1 ≤ b.1)

end Object

/- What stands before a byte, or before the mark at the end. -/
def separator (position : Nat) : String :=
  if position > 0 then
    if position % 16 = 0 then
      "\n"
    else
      " "
  else
    ""

/-
  Object code as text: pairs of digits, sixteen on a line, and
  a mark at the end.
-/
def format (bytes : List UInt8) : String :=
  String.join (bytes.zipIdx.map fun (byte, i) =>
      separator i ++ Text.upperHex 2 byte.toNat)
    ++ separator bytes.length
    ++ "zz\n"

end Assembly

end Pep9
