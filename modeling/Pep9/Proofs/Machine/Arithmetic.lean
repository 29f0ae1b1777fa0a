import Mathlib.Data.Nat.Bitwise
import Pep9.Machine.Arithmetic

/-
  What the arithmetic of the machine computes: sums and
  differences wrap around, and the status bits of a comparison
  tell the order of signed numbers.

  Key theorems: `add_fst`, `subtract_fst`, `compare_n`,
  `compare_z`.
-/

namespace Pep9

namespace Machine

theorem signBit_testBit (w : UInt16) : signBit w = w.toNat.testBit 15 := by
  have hBit : w.toNat &&& 32768 = (w.toNat.testBit 15).toNat * 32768 := Nat.and_two_pow w.toNat 15
  have hZero : w &&& 0x8000 = 0 ↔ w.toNat &&& 32768 = 0 := by
    rw [← UInt16.toNat_inj]
    exact Iff.rfl
  unfold signBit
  rw [Bool.eq_iff_iff, decide_eq_true_iff, Ne, hZero, hBit]
  cases w.toNat.testBit 15 with
  | false | true => simp

/- The highest bit is set from the middle on. -/
theorem signBit_eq (w : UInt16) : signBit w = decide (32768 ≤ w.toNat) := by
  have hBound := w.toNat_lt
  rw [signBit_testBit, Nat.testBit_eq_decide_div_mod_eq]
  refine decide_eq_decide.mpr ?_
  omega

theorem signBit_xor (a b : UInt16) :
    signBit (a ^^^ b) = (signBit a != signBit b) := by
  simp only [signBit_testBit, UInt16.toNat_xor, Nat.testBit_xor]

theorem signBit_and (a b : UInt16) :
    signBit (a &&& b) = (signBit a && signBit b) := by
  simp only [signBit_testBit, UInt16.toNat_and, Nat.testBit_and]

theorem toNat_not (w : UInt16) :
    (~~~w).toNat = 65535 - w.toNat := UInt16.toNat_not w

theorem signBit_not (w : UInt16) : signBit (~~~w) = !signBit w := by
  rw [signBit_eq, signBit_eq, toNat_not, ← decide_not]
  refine decide_eq_decide.mpr ?_
  omega

theorem signed_eq (w : UInt16) :
    signed w = if w.toNat < 32768 then (w.toNat : Int)
      else (w.toNat : Int) - 65536 :=
  rfl

theorem add_fst (a b : UInt16) : (add a b 0).1 = a + b := by
  refine UInt16.toNat_inj.mp ?_
  change (UInt16.ofNat (a.toNat + b.toNat + 0)).toNat = _
  rw [UInt16.toNat_ofNat', UInt16.toNat_add, Nat.add_zero]

theorem subtract_fst (a b : UInt16) : (subtract a b).1 = a - b := by
  have hB := b.toNat_lt
  refine UInt16.toNat_inj.mp ?_
  change (UInt16.ofNat (a.toNat + (~~~b).toNat + 1)).toNat = _
  rw [UInt16.toNat_ofNat', UInt16.toNat_sub, toNat_not]
  omega

theorem compare_z (a b : UInt16) : (compare a b).z = decide (a = b) := by
  change decide ((subtract a b).1 = 0) = _
  rw [subtract_fst]
  refine decide_eq_decide.mpr ?_
  rw [← UInt16.toNat_inj, UInt16.toNat_sub, ← UInt16.toNat_inj]
  have hA := a.toNat_lt
  have hB := b.toNat_lt
  have hZero : UInt16.toNat 0 = 0 := rfl
  omega

/-
  The sign of the difference is that of the order, unless
  there is an overflow.
-/
theorem compare_n (a b : UInt16) :
    (compare a b).n = decide (signed a < signed b) := by
  have hA := a.toNat_lt
  have hB := b.toNat_lt
  have hDifference : (a - b).toNat = (65536 - b.toNat + a.toNat) % 65536 := UInt16.toNat_sub a b
  change (signBit (subtract a b).1 !=
    signBit ((a ^^^ (subtract a b).1) &&& (~~~b ^^^ (subtract a b).1))) = _
  rw [subtract_fst, signBit_and, signBit_xor, signBit_xor, signBit_not,
    signBit_eq, signBit_eq, signBit_eq, hDifference, signed_eq, signed_eq]
  -- One case for each combination of the three signs.
  by_cases hSignA : 32768 ≤ a.toNat <;>
  by_cases hSignB : 32768 ≤ b.toNat <;>
  by_cases hSign : 32768 ≤ (65536 - b.toNat + a.toNat) % 65536 <;>
  simp only [hSignA, hSignB, hSign, decide_true, decide_false] <;>
  split <;> split <;> simp <;> omega

end Machine

end Pep9
