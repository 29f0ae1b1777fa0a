import Pep9.Proofs.Assembly.Lines
import Pep9.Proofs.Text.Decimal

/-
  Numbers and symbols as operands. The numeral of a number is
  read as that number, and no symbol is read as one. Both are
  words of a line.

  Key theorems: `readWord?_toString`, `readWord?_symbol`,
  `isWord_of_isSymbol`.
-/

namespace Pep9

open List
open Text.Numeral (digits splitBase readNat readInt readInt_nat readInt_negative numeral_chars)

variable {n : Nat} {ranges : List Nat} {s : String}

namespace Assembly

theorem readWord?_toString (v : Int64) :
    readWord? (toString v) =
      if v.toInt < -32768 ∨ v.toInt > 65535 then none
      else some (UInt16.ofInt v.toInt) := by
  unfold readWord?
  rcases numeral_chars v with ⟨n, hInt, hChars⟩ | ⟨n, _, hInt, hChars⟩
  · rw [hChars, readInt_nat 31, hInt]
    by_cases hSmall : n < 2 ^ 31
    · rw [if_pos hSmall]
    · rw [if_neg hSmall, if_pos (by omega)]
  · rw [hChars, readInt_negative 31, hInt]
    by_cases hSmall : n ≤ 2 ^ 31
    · rw [if_pos hSmall]
    · rw [if_neg hSmall, if_pos (by omega)]

theorem isWord_toString (v : Int64) : IsWord (toString v) := by
  have hDigit : ∀ n : Nat, ∀ c ∈ Nat.toDigits 10 n, IsPlain c := by
    intro _ _ hC
    refine isPlain_of_isWordChar (Compile.isWordChar_of_isDigit ?_)
    exact Text.Numeral.isDigit_of_mem hC
  rcases numeral_chars v with ⟨n, _, hChars⟩ | ⟨n, _, _, hChars⟩
  · refine ⟨?_, ?_⟩
    · rw [hChars]
      exact Nat.toDigits_ne_nil
    · rw [hChars]
      exact hDigit n
  · refine ⟨?_, ?_⟩
    · rw [hChars]
      exact cons_ne_nil _ _
    · rw [hChars]
      intro c hC
      rcases mem_cons.mp hC with rfl | hC
      · exact isPlain_of_code (by decide) (by decide) (by decide) (by decide)
      · exact hDigit n c hC

variable {c : Char}

theorem not_startsSymbol_of_isDigit (h : c.isDigit = true) :
    startsSymbol c = false := by
  have hNone : ∀ n : Fin 58, 48 ≤ n.val → Text.inRanges Text.letterRanges n.val = false := by
    decide
  have hBounds : 48 ≤ c.val.toNat ∧ c.val.toNat ≤ 57 := by
    simpa [Char.isDigit, UInt32.le_iff_toNat_le] using h
  have hLetter : Text.isLetter c = false :=
    hNone ⟨c.toNat, by change c.val.toNat < 58; omega⟩ hBounds.1
  have hScore : c ≠ '_' := by
    rintro rfl
    exact absurd h (by decide)
  simp [startsSymbol, hLetter, hScore]

theorem not_isSymbol_toString (v : Int64) : isSymbol (toString v) = false := by
  unfold isSymbol
  rcases numeral_chars v with ⟨n, _, hChars⟩ | ⟨n, _, _, hChars⟩
  · rw [hChars]
    cases hCons : Nat.toDigits 10 n with
    | nil => rfl
    | cons c =>
      have hMem : c ∈ Nat.toDigits 10 n := hCons ▸ mem_cons_self
      have hDigit : c.isDigit = true := Text.Numeral.isDigit_of_mem hMem
      simp [not_startsSymbol_of_isDigit hDigit]
  · rw [hChars]
    rfl

/- A character that is no decimal digit has no value below ten. -/
theorem digitValue?_of_not_isDigit (h : c.isDigit = false) :
    Text.Numeral.digitValue? c = none ∨ ∃ d, Text.Numeral.digitValue? c = some d ∧ d ≥ 10 := by
  have hLower : 'a'.val.toNat = 97 := rfl
  have hUpper : 'A'.val.toNat = 65 := rfl
  unfold Text.Numeral.digitValue?
  split
  · next hRange =>
    have hDigit : c.isDigit = true := by
      simpa [Char.isDigit, Char.le_def] using hRange
    rw [h] at hDigit
    cases hDigit
  · split
    · next hRange =>
      simp only [Char.le_def, UInt32.le_iff_toNat_le] at hRange
      refine .inr ⟨_, rfl, ?_⟩
      change 10 ≤ c.val.toNat - 87
      omega
    · split
      · next hRange =>
        simp only [Char.le_def, UInt32.le_iff_toNat_le] at hRange
        refine .inr ⟨_, rfl, ?_⟩
        change 10 ≤ c.val.toNat - 55
        omega
      · exact .inl rfl

/- Nothing that starts like a symbol is a number. -/
theorem readNat_startsSymbol
    (limit : Nat)
    (rest : List Char)
    (h : startsSymbol c = true) :
    ∃ e, readNat limit (c :: rest) = .error e := by
  have hDigit : c.isDigit = false := by
    cases hCase : c.isDigit with
    | false => rfl
    | true =>
      rw [not_startsSymbol_of_isDigit hCase] at h
      cases h
  have hZero : c ≠ '0' := by
    rintro rfl
    cases hDigit
  have hSplit : splitBase (c :: rest) = (10, c :: rest) := by
    unfold splitBase
    split
    · next h => exact absurd (List.cons.inj h).1 hZero
    · next h => exact absurd (List.cons.inj h).1 hZero
    · rfl
  unfold readNat
  rw [if_neg (by simp), hSplit]
  by_cases hScore : c = '_'
  · subst hScore
    split
    · exact ⟨_, rfl⟩
    · exact ⟨_, rfl⟩
  · refine ⟨.malformed, ?_⟩
    have hDigits : digits 10 limit 0 (c :: rest) = .error .malformed := by
      rw [digits, if_neg hScore]
      rcases digitValue?_of_not_isDigit hDigit with hNone | ⟨_, hValue, hLarge⟩
      · rw [hNone]
      · simp only [hValue, if_pos hLarge]
    rw [hDigits]

theorem readWord?_symbol (hSymbol : isSymbol s = true) :
    readWord? s = none := by
  unfold isSymbol at hSymbol
  unfold readWord?
  cases hCons : s.toList with
  | nil =>
    rw [hCons] at hSymbol
    cases hSymbol
  | cons c rest =>
    rw [hCons] at hSymbol
    have hStart : startsSymbol c = true := (Bool.and_eq_true_iff.mp hSymbol).1
    rcases readNat_startsSymbol (Nat.pow 2 32 - 1) rest hStart with ⟨e, hRead⟩
    have hMinus : c ≠ '-' := by
      rintro rfl
      exact absurd hStart (by decide)
    have hPlus : (c :: rest).head? ≠ some '+' := by
      intro h
      rw [Option.some.inj h] at hStart
      exact absurd hStart (by decide)
    have hInt : readInt 32 (c :: rest) = .error e := by
      unfold readInt
      split
      · next h => exact absurd (List.cons.inj h).1 hMinus
      · rw [if_neg hPlus, hRead]
    rw [hInt]

/- The ranges of a set, with their first and last ends. -/
def rangesOf : List Nat → List (Nat × Nat)
  | first :: stop :: rest => (first, stop) :: rangesOf rest
  | _ => []

theorem inRanges_eq_true (h : Text.inRanges ranges n = true) :
    ∃ range ∈ rangesOf ranges, range.1 ≤ n ∧ n < range.2 := by
  fun_induction Text.inRanges ranges n with
  | case1 => cases h
  | case2 first stop _ _ hBefore ih =>
    rcases Bool.or_eq_true_iff.mp h with hInside | hRest
    · exact ⟨(first, stop), mem_cons_self, Nat.not_lt.mp hBefore, of_decide_eq_true hInside⟩
    · rcases ih hRest with ⟨range, hRange, hBounds⟩
      exact ⟨range, mem_cons_of_mem _ hRange, hBounds⟩
  | case3 => cases h

/- Sets with ranges that lie apart have no common members. -/
theorem inRanges_apart {others : List Nat}
    (hApart :
      (rangesOf ranges).all (fun range =>
        (rangesOf others).all fun other => range.2 ≤ other.1 || other.2 ≤ range.1) = true)
    (h : Text.inRanges ranges n = true) :
    Text.inRanges others n = false := by
  refine Bool.eq_false_iff.mpr fun hOther => ?_
  rcases inRanges_eq_true h with ⟨range, hRange, _, _⟩
  rcases inRanges_eq_true hOther with ⟨other, hMem, _, _⟩
  have hOne := all_eq_true.mp (all_eq_true.mp hApart range hRange) other hMem
  simp only [Bool.or_eq_true, decide_eq_true_eq] at hOne
  omega

theorem isPlain_of_continuesSymbol (h : continuesSymbol c = true) :
    IsPlain c where
  blank := by
    simp only [continuesSymbol, Bool.or_eq_true, decide_eq_true_eq] at h
    rcases h with (hLetter | hDigit) | rfl
    · exact inRanges_apart (by decide +kernel) hLetter
    · exact inRanges_apart (by decide +kernel) hDigit
    · decide
  comment := by
    rintro rfl
    exact absurd h (by decide)
  colon := by
    rintro rfl
    exact absurd h (by decide)
  comma := by
    rintro rfl
    exact absurd h (by decide)

theorem isWord_of_isSymbol (h : isSymbol s = true) : IsWord s := by
  unfold isSymbol at h
  cases hCons : s.toList with
  | nil =>
    rw [hCons] at h
    cases h
  | cons c =>
    rw [hCons] at h
    rcases Bool.and_eq_true_iff.mp h with ⟨hStart, hRest⟩
    have hFirst : continuesSymbol c = true := by
      rcases Bool.or_eq_true_iff.mp hStart with hLetter | hScore
      · simp [continuesSymbol, hLetter]
      · simp [continuesSymbol, of_decide_eq_true hScore]
    refine ⟨by simp [hCons], fun d hD => ?_⟩
    rw [hCons] at hD
    rcases mem_cons.mp hD with rfl | hD
    · exact isPlain_of_continuesSymbol hFirst
    · exact isPlain_of_continuesSymbol (all_eq_true.mp hRest d hD)

end Assembly

end Pep9
