import Pep9.Proofs.Machine.Memory

/-
  Words in a row. Addresses wrap around at the end of memory,
  so that places are told apart by their distance from a base
  and not by their order.

  Key theorems: `Memory.word_setWord_offset`,
  `Memory.word_setWords`, `Memory.Holds.setWord`.
-/

namespace Pep9

variable {k q : Nat}

namespace Machine

theorem offset_ne {base : UInt16} {j : Nat}
    (hJ : j < memorySize)
    (hK : k < memorySize)
    (h : j ≠ k) :
    base + UInt16.ofNat j ≠ base + UInt16.ofNat k := by
  have hSize : memorySize = 65536 := rfl
  intro hEq
  have hNat := congrArg UInt16.toNat hEq
  rw [UInt16.toNat_add, UInt16.toNat_add, UInt16.toNat_ofNat', UInt16.toNat_ofNat'] at hNat
  omega

theorem offset_zero (base : UInt16) :
    base + UInt16.ofNat 0 = base := UInt16.add_zero base

theorem offset_add
    (base : UInt16)
    (j k : Nat) :
    base + UInt16.ofNat j + UInt16.ofNat k = base + UInt16.ofNat (j + k) := by
  rw [UInt16.ofNat_add, UInt16.add_assoc]

theorem offset_sub
    (base : UInt16)
    (j k : Nat) :
    base + UInt16.ofNat (j + k) - UInt16.ofNat k = base + UInt16.ofNat j := by
  rw [UInt16.ofNat_add, ← UInt16.add_assoc, UInt16.add_sub_cancel]

/-
  Some bytes from a base on have none of the first addresses
  of memory.
-/
def Clear (limit : Nat) (base : UInt16) (size : Nat) : Prop :=
  ∀ j < limit, ∀ k < size, UInt16.ofNat j ≠ base + UInt16.ofNat k

namespace Clear

variable {limit size : Nat} {base : UInt16}

/- The same for bytes among them. -/
theorem sub {start length : Nat}
    (h : Clear limit base size)
    (hEnd : start + length ≤ size) :
    Clear limit (base + UInt16.ofNat start) length := by
  intro j hJ k _
  rw [offset_add]
  exact h j hJ (start + k) (by omega)

end Clear

namespace Memory

variable {memory : Memory} {base w : UInt16}

variable {p : Nat} {words : List UInt16}

theorem byte_setWord_offset
    (hP : p + 2 ≤ memorySize)
    (hK : k < memorySize)
    (h : k < p ∨ p + 2 ≤ k) :
    (memory.setWord (base + UInt16.ofNat p) w).byte (base + UInt16.ofNat k) =
      memory.byte (base + UInt16.ofNat k) := by
  have hNext : base + UInt16.ofNat p + 1 = base + UInt16.ofNat (p + 1) := offset_add base p 1
  rw [byte_setWord, hNext, if_neg, if_neg]
  · exact offset_ne hK (by omega) (by omega)
  · exact offset_ne hK (by omega) (by omega)

/- A word is not changed with one that does not overlap it. -/
theorem word_setWord_offset
    (hP : p + 2 ≤ memorySize)
    (hQ : q + 2 ≤ memorySize)
    (h : q + 2 ≤ p ∨ p + 2 ≤ q) :
    (memory.setWord (base + UInt16.ofNat p) w).word (base + UInt16.ofNat q) =
      memory.word (base + UInt16.ofNat q) := by
  have hNext : base + UInt16.ofNat q + 1 = base + UInt16.ofNat (q + 1) := offset_add base q 1
  unfold word
  rw [hNext, byte_setWord_offset hP (by omega) (by omega),
    byte_setWord_offset hP (by omega) (by omega)]

/- Memory with some words from an address on. -/
def setWords (memory : Memory) (address : UInt16) : List UInt16 → Memory
  | [] => memory
  | w :: rest => (memory.setWord address w).setWords (address + 2) rest

section

variable (hP : p + 2 * words.length ≤ memorySize)
include hP

theorem byte_setWords_offset
    (hK : k < memorySize)
    (h : k < p ∨ p + 2 * words.length ≤ k) :
    (memory.setWords (base + UInt16.ofNat p) words).byte
        (base + UInt16.ofNat k) = memory.byte (base + UInt16.ofNat k) := by
  induction words generalizing memory p with
  | nil => rfl
  | cons _ _ ih =>
    rw [List.length_cons] at hP h
    have hNext : base + UInt16.ofNat p + 2 = base + UInt16.ofNat (p + 2) := offset_add base p 2
    rw [setWords, hNext, ih (by omega) (by omega), byte_setWord_offset (by omega) hK (by omega)]

theorem word_setWords_offset
    (hQ : q + 2 ≤ memorySize)
    (h : q + 2 ≤ p ∨ p + 2 * words.length ≤ q) :
    (memory.setWords (base + UInt16.ofNat p) words).word (base + UInt16.ofNat q) =
      memory.word (base + UInt16.ofNat q) := by
  have hNext : base + UInt16.ofNat q + 1 = base + UInt16.ofNat (q + 1) := offset_add base q 1
  unfold word
  rw [hNext, byte_setWords_offset hP (by omega) (by omega),
    byte_setWords_offset hP (by omega) (by omega)]

theorem word_setWords {i : Nat}
    (h : words[i]? = some w) :
    (memory.setWords (base + UInt16.ofNat p) words).word (base + UInt16.ofNat (p + 2 * i)) = w := by
  induction words generalizing memory p i with
  | nil => cases h
  | cons _ _ ih =>
    rw [List.length_cons] at hP
    have hNext : base + UInt16.ofNat p + 2 = base + UInt16.ofNat (p + 2) := offset_add base p 2
    rw [setWords, hNext]
    cases i with
    | zero =>
      cases h
      rw [word_setWords_offset (by omega) (by omega) (by omega)]
      exact word_setWord ..
    | succ i =>
      have hPlace : p + 2 * (i + 1) = p + 2 + 2 * i := by omega
      rw [hPlace]
      exact ih (by omega) h

end

/- Bytes at the start of memory stay when words change elsewhere. -/
theorem Holds.setWord {limit address : Nat} {bytes : List UInt8}
    (h : memory.Holds address bytes)
    (hLimit : address + bytes.length ≤ limit)
    (hClear : Clear limit base 2) :
    (memory.setWord base w).Holds address bytes := by
  refine h.congr fun k _ hK => ?_
  have hFirst := hClear k (by omega) 0 (by omega)
  have hSecond : UInt16.ofNat k ≠ base + 1 := hClear k (by omega) 1 (by omega)
  rw [offset_zero] at hFirst
  rw [byte_setWord, if_neg hSecond, if_neg hFirst]

end Memory

end Machine

end Pep9
