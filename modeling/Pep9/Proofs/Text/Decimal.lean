import Mathlib.Algebra.Order.Ring.Nat
import Pep9.Text.Numeral

/-
  Decimal numerals. Digits are read as the number that they
  stand for, and a signed numeral is read as its integer
  exactly when 64 bits can hold it. A numeral that may name
  its base is read as decimal too where it starts with no zero.

  Key theorems: `Numeral.digits_decimal`,
  `Numeral.readDecimal?_eq_some`,
  `Numeral.isDecimal_toDigits`, `Numeral.readInt_nat`,
  `Numeral.readInt_negative`.
-/

namespace Pep9

open List

variable {c : Char} {n : Nat}

namespace Text

namespace Numeral

theorem digitValue?_of_isDigit (h : c.isDigit = true) :
    digitValue? c = some (c.toNat - '0'.toNat) ∧ c.toNat - '0'.toNat < 10 ∧ c ≠ '_' := by
  have hRange : '0' ≤ c ∧ c ≤ '9' := by
    simpa [Char.isDigit, Char.le_def] using h
  have hBounds : 48 ≤ c.val.toNat ∧ c.val.toNat ≤ 57 := by
    simpa [Char.le_def, UInt32.le_iff_toNat_le] using hRange
  refine ⟨if_pos hRange, ?_, ?_⟩
  · change c.val.toNat - 48 < 10
    omega
  · rintro rfl
    exact absurd h (by decide)

theorem le_ofDigitChars
    (cs : List Char)
    (value : Nat) :
    value ≤ Nat.ofDigitChars 10 cs value := by
  rw [Nat.ofDigitChars_eq_ofDigitChars_zero]
  have hPos : 1 ≤ 10 ^ cs.length := Nat.one_le_pow _ _ (by decide)
  have hTimes := Nat.mul_le_mul_right value hPos
  omega

variable {cs : List Char} {v : Int64} {s : String}

/- Digits are read as the number that they stand for. -/
theorem digits_decimal {limit value : Nat}
    (hDigits : ∀ c ∈ cs, c.isDigit = true) :
    digits 10 limit value cs =
      if Nat.ofDigitChars 10 cs value ≤ limit ∨ cs = [] then
        .ok (Nat.ofDigitChars 10 cs value)
      else
        .error .outOfRange := by
  induction cs generalizing value with
  | nil => simp [digits]
  | cons c rest ih =>
    rcases digitValue?_of_isDigit (hDigits c mem_cons_self) with ⟨hValue, hSmall, hScore⟩
    have hRest := fun k => @ih k fun d hD => hDigits d (mem_cons_of_mem _ hD)
    have hLeast := le_ofDigitChars rest (value * 10 + (c.toNat - '0'.toNat))
    rw [digits, if_neg hScore]
    simp only [hValue, if_neg (Nat.not_le.mpr hSmall)]
    rw [Nat.ofDigitChars_cons, Nat.mul_comm 10 value]
    split
    · rw [if_neg]
      simp only [reduceCtorEq, or_false]
      omega
    · rw [hRest]
      cases rest with
      | nil =>
        simp only [Nat.ofDigitChars_nil, or_true, if_true, reduceCtorEq, or_false]
        rw [if_pos (by omega)]
      | cons => simp only [reduceCtorEq, or_false]

/-
  A decimal numeral of a 64-bit integer: one digit or more
  behind an optional sign.
-/
inductive IsDecimal (s : String) (v : Int64) : Prop where
  | positive {cs : List Char} (hText : s.toList = cs ∨ s.toList = '+' :: cs) (hSome : cs ≠ [])
      (hDigits : ∀ c ∈ cs, c.isDigit = true) (hValue : v.toInt = Nat.ofDigitChars 10 cs 0)
  | negative {cs : List Char} (hText : s.toList = '-' :: cs) (hSome : cs ≠ [])
      (hDigits : ∀ c ∈ cs, c.isDigit = true) (hValue : v.toInt = -(Nat.ofDigitChars 10 cs 0 : Int))

/- The integers that 64 bits hold. -/
theorem ofInt_eq_iff {i : Int}
    (hLeast : -2 ^ 63 ≤ i)
    (hMost : i < 2 ^ 63) :
    Int64.ofInt i = v ↔ v.toInt = i := by
  constructor
  · rintro rfl
    exact Int64.toInt_ofInt_of_le hLeast hMost
  · rintro rfl
    exact Int64.ofInt_toInt v

theorem isDigit_of_mem (h : c ∈ Nat.toDigits 10 n) : c.isDigit = true :=
  Nat.isDigit_of_mem_toDigits (by decide) (by decide) h

/- Every numeral has a first digit. -/
theorem toDigits_cons (n : Nat) :
    ∃ c cs, Nat.toDigits 10 n = c :: cs ∧ c.isDigit = true := by
  have hSome : Nat.toDigits 10 n ≠ [] := Nat.toDigits_ne_nil
  rcases exists_cons_of_ne_nil hSome with ⟨c, cs, hCons⟩
  exact ⟨c, cs, hCons, isDigit_of_mem (hCons ▸ mem_cons_self)⟩

theorem not_isSign_of_isDigit (h : c.isDigit = true) : c ≠ '-' ∧ c ≠ '+' := by
  constructor <;>
  · rintro rfl
    exact absurd h (by decide)

theorem readDecimal?_negative
    (hText : s.toList = '-' :: cs)
    (hSome : cs ≠ [])
    (hDigits : ∀ c ∈ cs, c.isDigit = true) :
    readDecimal? s =
      if Nat.ofDigitChars 10 cs 0 ≤ 2 ^ 63 then
        some (Int64.ofInt (-(Nat.ofDigitChars 10 cs 0 : Int)))
      else
        none := by
  have hAll : ¬(cs.isEmpty = true ∨ ¬cs.all Char.isDigit = true) := by
    simp [hSome, all_eq_true.mpr hDigits]
  have hPower : Nat.pow 2 63 = 2 ^ 63 := rfl
  unfold readDecimal?
  simp only [hText, head?_cons, tail_cons, true_or,
    if_true, if_neg hAll, digits_decimal hDigits, hSome, or_false, hPower]
  by_cases hFits : Nat.ofDigitChars 10 cs 0 ≤ 2 ^ 63
  · simp only [if_pos hFits]
  · simp only [if_neg hFits]

theorem readDecimal?_positive
    (hText : s.toList = cs ∨ s.toList = '+' :: cs)
    (hSome : cs ≠ [])
    (hDigits : ∀ c ∈ cs, c.isDigit = true) :
    readDecimal? s =
      if Nat.ofDigitChars 10 cs 0 < 2 ^ 63 then
        some (Int64.ofInt (Nat.ofDigitChars 10 cs 0))
      else
        none := by
  have hAll : ¬(cs.isEmpty = true ∨ ¬cs.all Char.isDigit = true) := by
    simp [hSome, all_eq_true.mpr hDigits]
  have hHead : s.toList.head? ≠ some '-' ∧ (if s.toList.head? = some '-' ∨ s.toList.head? = some '+'
        then s.toList.tail else s.toList) = cs := by
    rcases hText with hText | hText
    · cases cs with
      | nil => exact absurd rfl hSome
      | cons c =>
        have hSign := not_isSign_of_isDigit (hDigits c mem_cons_self)
        simp [hText, hSign]
    · simp [hText]
  have hPower : Nat.pow 2 63 = 2 ^ 63 := rfl
  unfold readDecimal?
  dsimp only
  rw [hHead.2]
  simp only [if_neg hAll, digits_decimal hDigits, hSome, or_false, hHead.1, if_false, hPower]
  by_cases hFits : Nat.ofDigitChars 10 cs 0 < 2 ^ 63
  · simp only [if_pos (Nat.le_of_lt hFits), if_pos hFits]
    rfl
  · by_cases hLimit : Nat.ofDigitChars 10 cs 0 ≤ 2 ^ 63
    · simp only [if_pos hLimit, if_neg hFits]
    · simp only [if_neg hLimit, if_neg hFits]

/- What is read has digits behind an optional sign. -/
theorem shape_of_readDecimal? (h : readDecimal? s = some v) :
    ∃ cs, cs ≠ [] ∧ (∀ c ∈ cs, c.isDigit = true) ∧ ((s.toList = cs ∨ s.toList = '+' :: cs) ∨
        s.toList = '-' :: cs) := by
  unfold readDecimal? at h
  dsimp only at h
  generalize hCs : (if s.toList.head? = some '-' ∨
    s.toList.head? = some '+' then s.toList.tail else s.toList) = cs at h
  by_cases hBad : cs.isEmpty = true ∨ ¬cs.all Char.isDigit = true
  · rw [if_pos hBad] at h
    cases h
  · rw [not_or, not_not, all_eq_true] at hBad
    refine ⟨cs, fun hNone => ?_, hBad.2, ?_⟩
    · exact hBad.1 (List.isEmpty_iff.mpr hNone)
    · rw [← hCs]
      split
      · next hSign =>
        rcases hSign with hSign | hSign
        · rcases head?_eq_some_iff.mp hSign with ⟨_, hRest⟩
          exact .inr (by rw [hRest]; rfl)
        · rcases head?_eq_some_iff.mp hSign with ⟨_, hRest⟩
          exact .inl (.inr (by rw [hRest]; rfl))
      · exact .inl (.inl rfl)

/- The numerals that are read, and what they are read as. -/
theorem readDecimal?_eq_some : readDecimal? s = some v ↔ IsDecimal s v := by
  constructor
  · intro h
    rcases shape_of_readDecimal? h with ⟨_, hSome, hDigits, hText | hText⟩
    · rw [readDecimal?_positive hText hSome hDigits] at h
      split at h
      · refine .positive hText hSome hDigits ?_
        exact (ofInt_eq_iff (by omega) (by omega)).mp (Option.some.inj h)
      · cases h
    · rw [readDecimal?_negative hText hSome hDigits] at h
      split at h
      · refine .negative hText hSome hDigits ?_
        exact (ofInt_eq_iff (by omega) (by omega)).mp (Option.some.inj h)
      · cases h
  · have hLeast := v.le_toInt
    have hMost := v.toInt_lt
    rintro (⟨hText, hSome, hDigits, hValue⟩ | ⟨hText, hSome, hDigits, hValue⟩)
    · rw [readDecimal?_positive hText hSome hDigits, if_pos (by omega), ← hValue, Int64.ofInt_toInt]
    · rw [readDecimal?_negative hText hSome hDigits, if_pos (by omega), ← hValue, Int64.ofInt_toInt]

/- The characters of the numeral of an integer. -/
theorem integer_chars (i : Int) :
    (∃ n : Nat, i = n ∧ (toString i).toList = Nat.toDigits 10 n) ∨
      ∃ n : Nat, 0 < n ∧ i = -(n : Int) ∧ (toString i).toList = '-' :: Nat.toDigits 10 n := by
  cases i with
  | ofNat n => exact .inl ⟨n, rfl, Nat.toList_repr⟩
  | negSucc n =>
    refine .inr ⟨n + 1, Nat.succ_pos n, rfl, ?_⟩
    change ("-" ++ (n + 1).repr).toList = _
    rw [String.toList_append, Nat.toList_repr]
    rfl

theorem numeral_chars (v : Int64) :
    (∃ n : Nat, v.toInt = n ∧ (toString v).toList = Nat.toDigits 10 n) ∨
      ∃ n : Nat, 0 < n ∧ v.toInt = -(n : Int) ∧ (toString v).toList = '-' :: Nat.toDigits 10 n :=
  integer_chars v.toInt

/- The digits of a number that 64 bits hold. -/
theorem isDecimal_toDigits (h : v.toInt = n) :
    IsDecimal (String.ofList (Nat.toDigits 10 n)) v := by
  refine .positive (.inl (String.toList_ofList ..)) Nat.toDigits_ne_nil ?_ ?_
  · exact fun _ => isDigit_of_mem
  · rw [Nat.ofDigitChars_ten_toDigits, h]

------------------------------------------------------------
-- Numerals of Any Base
------------------------------------------------------------

theorem toDigits_head (h : 0 < n) :
    ∃ c rest, Nat.toDigits 10 n = c :: rest ∧ c ≠ '0' := by
  induction n using Nat.strongRecOn with
  | ind n ih =>
    rw [Nat.toDigits_eq_if (by decide)]
    split
    · next hSmall =>
      have hAll : ∀ k : Fin 10, 0 < k.val → k.val.digitChar ≠ '0' := by decide
      exact ⟨_, _, rfl, hAll ⟨n, hSmall⟩ h⟩
    · rcases ih (n / 10) (by omega) (by omega) with ⟨c, _, hCons, hC⟩
      exact ⟨c, _, by rw [hCons]; rfl, hC⟩

theorem underscoresBetween_of_digits {after : Bool}
    (h : ∀ c ∈ cs, c.isDigit = true) :
    underscoresBetween isAnyDigit after cs = true := by
  induction cs generalizing after with
  | nil => rfl
  | cons c _ ih =>
    have hScore := (digitValue?_of_isDigit (h c mem_cons_self)).2.2
    rw [underscoresBetween, if_neg hScore]
    exact ih fun d hD => h d (mem_cons_of_mem _ hD)

theorem readNat_toDigits (limit n : Nat) :
    readNat limit (Nat.toDigits 10 n) =
      if n ≤ limit then .ok n else .error .outOfRange := by
  have hDigits : ∀ c ∈ Nat.toDigits 10 n, c.isDigit = true := fun _ => isDigit_of_mem
  unfold readNat
  by_cases hZero : n = 0
  · subst hZero
    simp [Nat.toDigits_zero, splitBase, digits, underscoresAllowed, underscoresBetween]
  · rcases toDigits_head (Nat.pos_of_ne_zero hZero) with ⟨_, _, hCons, hC⟩
    have hSplit : splitBase (Nat.toDigits 10 n) = (10, Nat.toDigits 10 n) := by
      rw [hCons]
      unfold splitBase
      split
      · next h => exact absurd (List.cons.inj h).1 hC
      · next h => exact absurd (List.cons.inj h).1 hC
      · rfl
    rw [hSplit, digits_decimal hDigits]
    unfold underscoresAllowed
    rw [underscoresBetween_of_digits hDigits]
    by_cases hFits : n ≤ limit
    · simp [hFits]
    · simp [hFits]

theorem readInt_nat (bits n : Nat) :
    readInt (bits + 1) (Nat.toDigits 10 n) =
      if n < 2 ^ bits then .ok (n : Int) else .error .outOfRange := by
  have hTwice : Nat.pow 2 (bits + 1) = 2 * 2 ^ bits := Nat.pow_succ'
  have hHalf : Nat.pow 2 (bits + 1 - 1) = 2 ^ bits := rfl
  have hRead := readNat_toDigits (Nat.pow 2 (bits + 1) - 1) n
  rcases toDigits_cons n with ⟨c, _, hCons, hDigit⟩
  rcases not_isSign_of_isDigit hDigit with ⟨hMinus, hPlus⟩
  rw [hCons] at hRead ⊢
  unfold readInt
  split
  · next h => exact absurd (List.cons.inj h).1 hMinus
  · rw [if_neg (by simpa using hPlus), hRead]
    by_cases hFits : n ≤ Nat.pow 2 (bits + 1) - 1
    · rw [if_pos hFits]
      dsimp only
      by_cases hSmall : n < 2 ^ bits
      · rw [if_pos hSmall, if_neg (by omega)]
      · rw [if_neg hSmall, if_pos (by omega)]
    · rw [if_neg hFits, if_neg (by omega)]

theorem readInt_negative (bits n : Nat) :
    readInt (bits + 1) ('-' :: Nat.toDigits 10 n) =
      if n ≤ 2 ^ bits then .ok (-(n : Int)) else .error .outOfRange := by
  have hRead := readNat_toDigits (Nat.pow 2 (bits + 1) - 1) n
  have hTwice : Nat.pow 2 (bits + 1) = 2 * 2 ^ bits := Nat.pow_succ'
  have hHalf : Nat.pow 2 (bits + 1 - 1) = 2 ^ bits := rfl
  unfold readInt
  split
  · next rest hCons =>
    cases hCons
    rw [hRead]
    by_cases hFits : n ≤ Nat.pow 2 (bits + 1) - 1
    · rw [if_pos hFits]
      dsimp only
      by_cases hSmall : n ≤ 2 ^ bits
      · rw [if_pos hSmall, if_neg (by omega)]
      · rw [if_neg hSmall, if_pos (by omega)]
    · rw [if_neg hFits, if_neg (by omega)]
  · next hOther => exact absurd rfl (hOther _)

end Numeral

end Text

end Pep9
