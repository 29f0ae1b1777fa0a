import Pep9.Machine.State

/-
  Arithmetic of words and the status bits that it sets.

  Key definitions: `add`, `subtract`, `compare`, `shiftLeft`,
  `shiftRight`, `negate`.
-/

namespace Pep9

namespace Machine

def signBit (w : UInt16) : Bool :=
  w &&& 0x8000 ≠ 0

/-
  The sum of two words and a carry of zero or one. The carry
  out and the overflow of signed numbers are kept.
-/
def add (a b carry : UInt16) : UInt16 × Flags :=
  let sum := a.toNat + b.toNat + carry.toNat
  let r := UInt16.ofNat sum
  (r,
    { n := signBit r
      z := r = 0
      v := signBit ((a ^^^ r) &&& (b ^^^ r))
      c := sum > 0xFFFF })

def subtract (a b : UInt16) : UInt16 × Flags :=
  add a (~~~b) 1

/-
  The status bits of a comparison: those of the difference,
  with the sign corrected for overflow, so that it tells the
  order of signed numbers.
-/
def compare (a b : UInt16) : Flags :=
  let flags := (subtract a b).2
  { flags with n := flags.n != flags.v }

def shiftLeft (w : UInt16) : UInt16 × Flags :=
  let r := w <<< 1
  (r,
    { n := signBit r
      z := r = 0
      v := signBit (w ^^^ r)
      c := signBit w })

/- Half of a signed word. The overflow bit stays. -/
def shiftRight (flags : Flags) (w : UInt16) : UInt16 × Flags :=
  let r := (w >>> 1) ||| (w &&& 0x8000)
  (r, { flags.ofWord r with c := w &&& 1 ≠ 0 })

/- The negative of a word. The carry bit stays. -/
def negate (flags : Flags) (w : UInt16) : UInt16 × Flags :=
  let r := 0 - w
  (r, { flags.ofWord r with v := w = 0x8000 })

/- The signed number that a word stands for. -/
def signed (w : UInt16) : Int :=
  if w < 0x8000 then
    w.toNat
  else
    (w.toNat : Int) - 65536

end Machine

end Pep9
