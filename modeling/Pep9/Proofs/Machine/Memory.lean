import Pep9.Assembly.Assembler
import Pep9.Machine.Run

/-
  Bytes and words of memory, and what loading leaves there.

  Key theorems: `Memory.word_setWord`, `Memory.holds_append`,
  `Memory.holds_setBytes`.
-/

namespace Pep9

open List
open Assembly (bytesOfWord)

namespace Machine

variable {memory : Memory} {address : Nat} {bytes : List UInt8}

namespace Memory

@[simp]
theorem byte_setByte
    (memory : Memory)
    (address other : UInt16)
    (value : UInt8) :
    (memory.setByte address value).byte other =
      if other = address then value else memory.byte other := by
  have hOther : other.toNat < memorySize := other.toNat_lt
  have hAddress : address.toNat < memorySize := address.toNat_lt
  change (memory.bytes.set address.toNat value hAddress)[other.toNat] =
    if other = address then value else memory.bytes[other.toNat]
  rw [Vector.getElem_set]
  simp only [UInt16.toNat_inj, eq_comm]

theorem ne_succ (address : UInt16) : address ≠ address + 1 := by
  intro hEq
  have hNat := congrArg UInt16.toNat hEq
  rw [UInt16.toNat_add] at hNat
  have hOne : UInt16.toNat 1 = 1 := rfl
  omega

/- A word is made of its two bytes. -/
theorem join_bytes (w : UInt16) :
    ((w >>> 8).toUInt8.toUInt16 <<< 8) ||| w.toUInt8.toUInt16 = w := by
  have hBound := w.toNat_lt
  have hHigh : ((w >>> 8).toUInt8.toUInt16 <<< 8).toNat = (w.toNat / 256) <<< 8 := by
    have hShift : UInt16.toNat 8 % 16 = 8 := rfl
    rw [UInt16.toNat_shiftLeft, hShift, UInt8.toNat_toUInt16,
      UInt16.toNat_toUInt8, UInt16.toNat_shiftRight, hShift,
      Nat.shiftRight_eq_div_pow, Nat.shiftLeft_eq, Nat.shiftLeft_eq]
    omega
  have hLow : w.toUInt8.toUInt16.toNat = w.toNat % 256 := by
    rw [UInt8.toNat_toUInt16, UInt16.toNat_toUInt8]
  refine UInt16.toNat_inj.mp ?_
  rw [UInt16.toNat_or, hHigh, ← Nat.shiftLeft_add_eq_or_of_lt (by omega)]
  omega

theorem byte_setWord
    (memory : Memory)
    (address other value : UInt16) :
    (memory.setWord address value).byte other = if other = address + 1 then value.toUInt8
      else if other = address then (value >>> 8).toUInt8
      else memory.byte other := by
  unfold setWord
  rw [byte_setByte, byte_setByte]

theorem word_setWord
    (memory : Memory)
    (address value : UInt16) :
    (memory.setWord address value).word address = value := by
  unfold word
  rw [byte_setWord, byte_setWord, if_neg (ne_succ address), if_pos rfl, if_pos rfl]
  exact join_bytes value

/- A byte outside of a word is not changed with it. -/
theorem byte_setWord_of_apart {address value : UInt16} {k : Nat}
    (hEnd : address.toNat + 2 ≤ memorySize)
    (hK : k < memorySize)
    (h : k < address.toNat ∨ address.toNat + 2 ≤ k) :
    (memory.setWord address value).byte (UInt16.ofNat k) = memory.byte (UInt16.ofNat k) := by
  have hSize : memorySize = 65536 := rfl
  have hOne : UInt16.toNat 1 = 1 := rfl
  have hNat : (UInt16.ofNat k).toNat = k := by
    rw [UInt16.toNat_ofNat']
    omega
  rw [byte_setWord, if_neg, if_neg]
  · intro hEq
    have hSame := congrArg UInt16.toNat hEq
    omega
  · intro hEq
    have hSame := congrArg UInt16.toNat hEq
    rw [UInt16.toNat_add] at hSame
    omega

/- Nor is a word that does not overlap it. -/
theorem word_setWord_of_apart {address other value : UInt16}
    (hEnd : address.toNat + 2 ≤ memorySize)
    (hOther : other.toNat + 2 ≤ memorySize)
    (h : other.toNat + 2 ≤ address.toNat ∨
        address.toNat + 2 ≤ other.toNat) :
    (memory.setWord address value).word other = memory.word other := by
  have hOne : UInt16.toNat 1 = 1 := rfl
  have hFirst : UInt16.ofNat other.toNat = other := UInt16.ofNat_toNat
  have hSecond : UInt16.ofNat (other.toNat + 1) = other + 1 := by
    refine UInt16.toNat_inj.mp ?_
    rw [UInt16.toNat_ofNat', UInt16.toNat_add]
    omega
  have hByte := @byte_setWord_of_apart memory address value other.toNat hEnd (by omega) (by omega)
  have hNext := @byte_setWord_of_apart memory address value
    (other.toNat + 1) hEnd (by omega) (by omega)
  rw [hFirst] at hByte
  rw [hSecond] at hNext
  unfold word
  rw [hByte, hNext]

/- Memory has some bytes from an address on. -/
def Holds (memory : Memory) (address : Nat) : List UInt8 → Prop
  | [] => True
  | value :: rest =>
    memory.byte (UInt16.ofNat address) = value ∧ memory.Holds (address + 1) rest

theorem holds_append {first second : List UInt8} :
    memory.Holds address (first ++ second) ↔
      memory.Holds address first ∧ memory.Holds (address + first.length) second := by
  induction first generalizing address with
  | nil => simp [Holds]
  | cons value rest ih =>
    have hNext : address + 1 + rest.length = address + (value :: rest).length := by
      rw [length_cons]
      omega
    rw [cons_append, Holds, Holds, ih, and_assoc, hNext]

/- Bytes stay where memory is the same. -/
theorem Holds.congr {later : Memory}
    (h : memory.Holds address bytes)
    (hSame :
      ∀ k, address ≤ k → k < address + bytes.length →
        later.byte (UInt16.ofNat k) = memory.byte (UInt16.ofNat k)) :
    later.Holds address bytes := by
  induction bytes generalizing address with
  | nil => trivial
  | cons _ _ ih =>
    rw [length_cons] at hSame
    refine ⟨?_, ih h.2 fun k hFrom hTo => hSame k ?_ ?_⟩
    · rw [hSame address (Nat.le_refl _) (by omega)]
      exact h.1
    · omega
    · omega

theorem Holds.word {w : UInt16}
    (h : memory.Holds address (bytesOfWord w)) :
    memory.word (UInt16.ofNat address) = w := by
  rcases h with ⟨hHigh, hLow, _⟩
  rw [UInt16.ofNat_add] at hLow
  unfold Memory.word
  rw [hHigh]
  change _ ||| (memory.byte (UInt16.ofNat address + UInt16.ofNat 1)).toUInt16 = w
  rw [hLow]
  exact join_bytes w

variable (hEnd : address + bytes.length ≤ memorySize)
include hEnd

theorem byte_setBytes_of_lt {k : Nat}
    (h : k < address) :
    (memory.setBytes (UInt16.ofNat address) bytes).byte
      (UInt16.ofNat k) = memory.byte (UInt16.ofNat k) := by
  have hSize : memorySize = 65536 := rfl
  induction bytes generalizing memory address with
  | nil => rfl
  | cons _ _ ih =>
    rw [length_cons] at hEnd
    have hNext : UInt16.ofNat address + 1 = UInt16.ofNat (address + 1) :=
      (UInt16.ofNat_add address 1).symm
    rw [setBytes, hNext, ih (by omega) (by omega), byte_setByte, if_neg]
    intro hEq
    have hNat := congrArg UInt16.toNat hEq
    rw [UInt16.toNat_ofNat', UInt16.toNat_ofNat'] at hNat
    omega

theorem holds_setBytes :
    (memory.setBytes (UInt16.ofNat address) bytes).Holds address bytes := by
  induction bytes generalizing memory address with
  | nil => trivial
  | cons _ _ ih =>
    rw [length_cons] at hEnd
    have hNext : UInt16.ofNat address + 1 = UInt16.ofNat (address + 1) :=
      (UInt16.ofNat_add address 1).symm
    rw [setBytes, hNext]
    refine ⟨?_, ih (by omega)⟩
    rw [byte_setBytes_of_lt (by omega) (Nat.lt_succ_self _), byte_setByte, if_pos rfl]

end Memory

end Machine

end Pep9
