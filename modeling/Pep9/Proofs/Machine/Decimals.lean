import Pep9.Proofs.Machine.Arithmetic
import Pep9.Proofs.Machine.Execution

/-
  Numbers that the machine prints and reads. What is printed of
  words, set apart by white space, is read back as those words.

  Key theorems: `readNumber_integer`, `Awaits.stores`,
  `Awaits.ends`, `decimals_read_back`.
-/

namespace Pep9

open List
open Isa (Mnemonic)
open Text (isBlank)
open Text.Numeral (isDigit_of_mem toDigits_cons toDigits_head readInt_nat readInt_negative
  integer_chars)

namespace Machine

variable {c : Char} {cs rest blanks : List Char}

theorem not_isBlank_of_isDigit (h : c.isDigit = true) : isBlank c = false :=
  (Assembly.isPlain_of_isWordChar (Compile.isWordChar_of_isDigit h)).blank

/- What belongs to a numeral is no white space. -/
theorem not_isBlank_of_belongsTo {base : Nat}
    (h : belongsTo base c = true) :
    isBlank c = false := by
  have hDigit : '0'.val.toNat = 48 ∧ '9'.val.toNat = 57 := ⟨rfl, rfl⟩
  have hLower : 'a'.val.toNat = 97 ∧ 'f'.val.toNat = 102 := ⟨rfl, rfl⟩
  have hUpper : 'A'.val.toNat = 65 ∧ 'F'.val.toNat = 70 := ⟨rfl, rfl⟩
  have hColon : ':'.val.toNat = 58 ∧ ';'.val.toNat = 59 := ⟨rfl, rfl⟩
  rcases Bool.or_eq_true_iff.mp h with hScore | hValue
  · rw [of_decide_eq_true hScore]
    decide
  · have hRange : '0' ≤ c ∧ c ≤ '9' ∨ 'a' ≤ c ∧ c ≤ 'f' ∨ 'A' ≤ c ∧ c ≤ 'F' := by
      unfold Text.hexValue? at hValue
      split at hValue
      · next hFound => exact .inl hFound
      · split at hValue
        · next hFound => exact .inr (.inl hFound)
        · split at hValue
          · next hFound => exact .inr (.inr hFound)
          · cases hValue
    simp only [Char.le_def, UInt32.le_iff_toNat_le] at hRange
    have hSame : c.toNat = c.val.toNat := rfl
    refine (Assembly.isPlain_of_code (by omega) (by omega) ?_ ?_).blank
    · rintro rfl
      omega
    · rintro rfl
      omega

theorem markedBase?_of_isBlank (h : isBlank c = true) :
    markedBase? c = none := by
  unfold markedBase?
  split
  · next hLetter => rcases hLetter with rfl | rfl <;> cases h
  · split
    · next hLetter => rcases hLetter with rfl | rfl <;> cases h
    · split
      · next hLetter => rcases hLetter with rfl | rfl <;> cases h
      · rfl

/- Nothing follows, or white space does. -/
def Apart (rest : List Char) : Prop :=
  ∀ c ∈ rest.head?, isBlank c = true

theorem takeDigits_apart {base : Nat}
    (h : Apart rest) :
    takeDigits base rest = ⟨[], rest⟩ := by
  cases rest with
  | nil => rfl
  | cons c =>
    have hStop : belongsTo base c = false := by
      refine Bool.eq_false_iff.mpr fun hBelongs => ?_
      have hBlank := h c rfl
      rw [not_isBlank_of_belongsTo hBelongs] at hBlank
      cases hBlank
    simp [takeDigits, hStop]

/- All digits are taken, and nothing behind them. -/
theorem takeDigits_append {base : Nat}
    (hDigits : ∀ c ∈ cs, belongsTo base c = true)
    (h : Apart rest) :
    takeDigits base (cs ++ rest) = ⟨cs, rest⟩ := by
  have hNone := @takeDigits_apart rest base h
  simp only [takeDigits, Taken.mk.injEq] at hNone ⊢
  rw [takeWhile_append_of_pos hDigits, dropWhile_append_of_pos hDigits,
    hNone.1, hNone.2, append_nil]
  exact ⟨rfl, rfl⟩

theorem belongsTo_of_isDigit (h : c.isDigit = true) :
    belongsTo 10 c = true := by
  have hRange : '0' ≤ c ∧ c ≤ '9' := by
    simpa [Char.isDigit, Char.le_def] using h
  have hSmall := (Text.Numeral.digitValue?_of_isDigit h).2.1
  unfold belongsTo Text.hexValue?
  rw [if_pos hRange]
  exact Bool.or_eq_true_iff.mpr (.inr (decide_eq_true hSmall))

/-
  The numeral of a natural number is taken as a whole. Only that
  of zero starts with a zero, and no base marker follows it.
-/
theorem takeNumeral_digits
    (n : Nat)
    (h : Apart rest) :
    takeNumeral (Nat.toDigits 10 n ++ rest) = .ok ⟨Nat.toDigits 10 n, rest⟩ := by
  by_cases hZero : n = 0
  · subst hZero
    rw [Nat.toDigits_zero]
    change Except.ok (takeAfterZero rest) = _
    unfold takeAfterZero
    cases rest with
    | nil => rfl
    | cons c => simp only [markedBase?_of_isBlank (h c rfl), takeDigits_apart h]
  · rcases toDigits_head (Nat.pos_of_ne_zero hZero) with ⟨c, _, hCons, hC⟩
    have hDigits : ∀ d ∈ Nat.toDigits 10 n, belongsTo 10 d = true :=
      fun d hD => belongsTo_of_isDigit (isDigit_of_mem hD)
    have hTaken := takeDigits_append hDigits h
    have hFirst := hDigits c (hCons ▸ mem_cons_self)
    rw [hCons] at hTaken ⊢
    rw [cons_append, takeNumeral, if_neg hC, if_pos hFirst]
    exact congrArg Except.ok hTaken

theorem takeSign_digits
    (n : Nat)
    (rest : List Char) :
    takeSign (Nat.toDigits 10 n ++ rest) = ⟨[], Nat.toDigits 10 n ++ rest⟩ := by
  rcases toDigits_cons n with ⟨c, _, hCons, hDigit⟩
  rcases Text.Numeral.not_isSign_of_isDigit hDigit with ⟨hMinus, hPlus⟩
  rw [hCons]
  unfold takeSign
  split
  · next h => exact absurd (List.cons.inj h).1 hPlus
  · next h => exact absurd (List.cons.inj h).1 hMinus
  · rfl

/- The numeral of an integer is read as that integer. -/
theorem readNumber_integer {i : Int}
    (hLeast : -2 ^ 63 ≤ i)
    (hMost : i < 2 ^ 63)
    (hBlanks : ∀ c ∈ blanks, isBlank c = true)
    (h : Apart rest) :
    readNumber (blanks ++ ((toString i).toList ++ rest)) = (.ok i, rest) := by
  unfold readNumber valueOf
  rw [dropWhile_append_of_pos hBlanks]
  rcases integer_chars i with ⟨n, hInt, hChars⟩ | ⟨n, _, hInt, hChars⟩
  · have hStart : (Nat.toDigits 10 n ++ rest).dropWhile isBlank = Nat.toDigits 10 n ++ rest := by
      rcases toDigits_cons n with ⟨c, _, hCons, hDigit⟩
      rw [hCons]
      simp [not_isBlank_of_isDigit hDigit]
    rw [hChars, hStart]
    simp only [takeSign_digits, takeNumeral_digits n h, nil_append, readInt_nat 63 n]
    rw [if_pos (by omega), hInt]
  · rw [hChars]
    have hStart : ('-' :: Nat.toDigits 10 n ++ rest).dropWhile isBlank =
          '-' :: Nat.toDigits 10 n ++ rest := rfl
    simp only [hStart]
    simp only [cons_append, takeSign, takeNumeral_digits n h,
      nil_append, readInt_negative 63 n]
    rw [if_pos (by omega), hInt]

/- Where there is only white space, there is no number. -/
theorem readNumber_blanks (hBlanks : ∀ c ∈ blanks, isBlank c = true) :
    readNumber blanks = (.error .ended, []) := by
  have hNone : blanks.dropWhile isBlank = [] := dropWhile_eq_nil_iff.mpr hBlanks
  unfold readNumber
  rw [hNone]
  rfl

/-
  What is printed of a word: the numeral of the number that it
  is with a sign.
-/
def decimal (w : UInt16) : String :=
  toString (if w.toNat < 32768 then (w.toNat : Int) else (w.toNat : Int) - 65536)

theorem decimal_eq (w : UInt16) : decimal w = toString (signed w) :=
  congrArg toString (signed_eq w).symm

theorem signed_bounds (w : UInt16) : -32768 ≤ signed w ∧ signed w ≤ 32767 := by
  have hBound := w.toNat_lt
  rw [signed_eq]
  split <;> omega

theorem ofInt_signed (w : UInt16) : UInt16.ofInt (signed w) = w := by
  have hBound := w.toNat_lt
  refine UInt16.toNat_inj.mp ?_
  unfold UInt16.ofInt
  rw [UInt16.toNat_ofNat', signed_eq]
  split <;> omega

section Machines

variable {m next last : Machine} {w : UInt16} {ws : List UInt16} {text : List Char}

/-
  The numeral of a word was added to the output, and nothing
  else is changed by the step.
-/
structure Printed (m : Machine) (w : UInt16) (next : Machine) : Prop where
  output : next.output = m.output ++ decimal w
  same : next =
    { m with
      pc := m.pc + 3
      steps := m.steps + 1
      output := next.output }

/- The step of an instruction with an operand is three bytes long. -/
theorem advance_eq (h : m.fetch.mnemonic.form ≠ .unary) :
    m.advance m.fetch = { m with pc := m.pc + 3, steps := m.steps + 1 } := by
  unfold advance Fetched.length
  rw [if_neg (by rw [← Mnemonic.form_ofOpcode]; exact h)]
  rfl

theorem step_prints
    (hGoes : m.halted = false)
    (hMnemonic : m.fetch.mnemonic = .deco) :
    ∃ next, m.step = (next, none) ∧
      Printed m (m.operand m.fetch.spec m.fetch.mode) next := by
  rw [step_goes hGoes, execute_eq, hMnemonic, advance_eq (by rw [hMnemonic]; decide)]
  unfold executeGeneral
  simp only [hMnemonic, ← decimal_eq]
  exact ⟨_, rfl, rfl, rfl⟩

/-
  A text of printed words, with white space between any two of
  them and perhaps before the first and behind the last.
-/
inductive Spaced : List UInt16 → List Char → Prop where
  | ended {blanks : List Char} (hBlanks : ∀ c ∈ blanks, isBlank c = true) : Spaced [] blanks
  | word {w : UInt16} {ws : List UInt16} {blanks rest : List Char}
      (hBlanks : ∀ c ∈ blanks, isBlank c = true) (hApart : Apart rest) (hRest : Spaced ws rest) :
      Spaced (w :: ws) (blanks ++ ((decimal w).toList ++ rest))

theorem Spaced.readNumber_ended (h : Spaced [] text) :
    readNumber text = (.error .ended, []) := by
  cases h with
  | ended hBlanks => exact readNumber_blanks hBlanks

theorem Spaced.readNumber_word (h : Spaced (w :: ws) text) :
    ∃ rest, readNumber text = (.ok (signed w), rest) ∧ Spaced ws rest := by
  have hBounds := signed_bounds w
  cases h with
  | word hBlanks hApart hRest =>
    rw [decimal_eq]
    exact ⟨_, readNumber_integer (by omega) (by omega) hBlanks hApart, hRest⟩

------------------------------------------------------------
-- Reading Instructions
------------------------------------------------------------

/- The machine is about to read a number. -/
structure Awaits (m : Machine) : Prop where
  goes : m.halted = false
  mnemonic : m.fetch.mnemonic = .deci
  mode : m.fetch.mode ≠ .immediate

/-
  A word was stored where the instruction says, and no other
  byte of memory is changed. The status bits tell whether it is
  negative and whether it is zero, there is no overflow, and the
  carry stays. Some input is gone, and nothing else is changed
  by the step.
-/
structure Stored (m : Machine) (w : UInt16) (next : Machine) : Prop where
  word : next.memory.word (m.address m.fetch.spec m.fetch.mode) = w
  others : ∀ address,
    address ≠ m.address m.fetch.spec m.fetch.mode →
    address ≠ m.address m.fetch.spec m.fetch.mode + 1 →
      next.memory.byte address = m.memory.byte address
  n : next.flags.n = decide (32768 ≤ w.toNat)
  z : next.flags.z = decide (w = 0)
  v : next.flags.v = false
  c : next.flags.c = m.flags.c
  same : next =
    { m with
      pc := m.pc + 3
      steps := m.steps + 1
      input := next.input
      flags := next.flags
      memory := next.memory }

/- The next word of the input is stored. -/
theorem Awaits.stores
    (h : m.Awaits)
    (hText : Spaced (w :: ws) m.input) :
    ∃ next, m.step = (next, none) ∧ Stored m w next ∧ Spaced ws next.input := by
  rcases hText.readNumber_word with ⟨_, hRead, hRest⟩
  have hBounds := signed_bounds w
  have hStep := step_reads h.goes h.mnemonic h.mode
  rw [advance_eq (by rw [h.mnemonic]; decide)] at hStep
  unfold decimalIn at hStep
  dsimp only at hStep
  rw [hRead] at hStep
  dsimp only at hStep
  rw [ofInt_signed, decide_eq_false (by omega)] at hStep
  refine ⟨_, hStep, ⟨?_, ?_, ?_, rfl, rfl, rfl, rfl⟩, hRest⟩
  · exact Memory.word_setWord ..
  · intro address hFirst hSecond
    exact (Memory.byte_setWord ..).trans ((if_neg hSecond).trans (if_neg hFirst))
  · exact signBit_eq w

/- Behind the last word there is no input, and nothing happens. -/
theorem Awaits.ends
    (h : m.Awaits)
    (hText : Spaced [] m.input) :
    m.step =
      ({ m with pc := m.pc + 3, steps := m.steps + 1, input := [] },
        some (.noInput m.pc)) := by
  have hStep := step_reads h.goes h.mnemonic h.mode
  rw [advance_eq (by rw [h.mnemonic]; decide)] at hStep
  unfold decimalIn at hStep
  dsimp only at hStep
  rw [hText.readNumber_ended] at hStep
  exact hStep

/- A reading instruction that does not fault has a place to store to. -/
theorem awaits_of_step
    (hGoes : m.halted = false)
    (hMnemonic : m.fetch.mnemonic = .deci)
    (hStep : m.step = (next, none)) :
    m.Awaits := by
  refine ⟨hGoes, hMnemonic, fun hMode => ?_⟩
  rw [step_goes hGoes, execute_eq, hMnemonic] at hStep
  unfold executeGeneral at hStep
  simp only [hMnemonic, if_pos hMode] at hStep
  cases hStep

/- Only reading instructions take input. -/
theorem Executed.input {f : Fetched} {result : Machine × Option Fault}
    (h : Executed m f result)
    (hOther : f.mnemonic ≠ .deci) :
    result.1.input = m.input := by
  cases h with
  | refused _ _ hRead | read _ _ _ _ hRead => exact absurd hRead hOther
  | _ => rfl

theorem step_input
    (hGoes : m.halted = false)
    (h : m.fetch.mnemonic ≠ .deci)
    (hStep : m.step = (next, none)) :
    next.input = m.input := by
  have hKept := (execute_executed (m.advance m.fetch) m.fetch).input h
  rw [← step_goes hGoes, hStep] at hKept
  exact hKept

/-
  Steps in which the reading instructions store some words, one
  after another. Other instructions may stand between them.
-/
inductive Reads : List UInt16 → Machine → Machine → Prop where
  | refl (m : Machine) : Reads [] m m
  | other {us : List UInt16} {m next last : Machine} (hGoes : m.halted = false)
      (hOther : m.fetch.mnemonic ≠ .deci) (hStep : m.step = (next, none))
      (hRest : Reads us next last) : Reads us m last
  | word {u : UInt16} {us : List UInt16} {m next last : Machine} (hAwaits : m.Awaits)
      (hStep : m.step = (next, none)) (hStored : Stored m u next) (hRest : Reads us next last) :
      Reads (u :: us) m last

/- Along any steps, the words of the input are stored in order. -/
theorem Steps.reads {n : Nat}
    (h : Steps n m last)
    (hText : Spaced ws m.input) :
    ∃ us vs, ws = us ++ vs ∧ Reads us m last ∧ Spaced vs last.input := by
  induction h generalizing ws with
  | refl m => exact ⟨[], ws, rfl, .refl m, hText⟩
  | @step _ m _ _ hGoes hStep _ ih =>
    by_cases hMnemonic : m.fetch.mnemonic = .deci
    · have hAwaits := awaits_of_step hGoes hMnemonic hStep
      cases ws with
      | nil =>
        rw [hAwaits.ends hText] at hStep
        cases hStep
      | cons w =>
        rcases hAwaits.stores hText with ⟨_, hNext, hStored, hMore⟩
        cases hStep.symm.trans hNext
        rcases ih hMore with ⟨us, vs, rfl, hReads, hLeft⟩
        exact ⟨w :: us, vs, rfl, .word hAwaits hStep hStored hReads, hLeft⟩
    · rw [← step_input hGoes hMnemonic hStep] at hText
      rcases ih hText with ⟨us, vs, rfl, hReads, hLeft⟩
      exact ⟨us, vs, rfl, .other hGoes hMnemonic hStep hReads, hLeft⟩

/-
  What is printed of words is read back. A printing instruction
  adds the numeral of its operand to the output. If the input is
  made of such numerals, set apart by white space, then along
  any steps the reading instructions store the words in order,
  and the next one stores the next word; behind the last word,
  it finds no input and leaves memory as it is.
-/
theorem decimals_read_back {n : Nat}
    (hText : Spaced ws m.input)
    (hSteps : Steps n m last) :
    (∀ printer : Machine,
      printer.halted = false →
      printer.fetch.mnemonic = .deco →
        ∃ after, printer.step = (after, none) ∧
          Printed printer
            (printer.operand printer.fetch.spec printer.fetch.mode) after) ∧
      ∃ us vs, ws = us ++ vs ∧
        Reads us m last ∧
        Spaced vs last.input ∧
        (last.Awaits →
          match vs with
          | [] =>
            ∃ after, last.step = (after, some (.noInput last.pc)) ∧
              after.memory = last.memory
          | v :: _ =>
            ∃ after, last.step = (after, none) ∧ Stored last v after) := by
  refine ⟨fun printer => step_prints, ?_⟩
  rcases hSteps.reads hText with ⟨us, vs, hWords, hReads, hLeft⟩
  refine ⟨us, vs, hWords, hReads, hLeft, fun hAwaits => ?_⟩
  cases vs with
  | nil => exact ⟨_, hAwaits.ends hLeft, rfl⟩
  | cons =>
    rcases hAwaits.stores hLeft with ⟨after, hStep, hStored, _⟩
    exact ⟨after, hStep, hStored⟩

end Machines

/- Two reading instructions, and the least number as input. -/
def readsTwice : Machine :=
  { initial "\t-32768\n" with
    memory :=
      (((Memory.zeros.setByte 0 0x31).setByte 1 0x01).setByte 2 0x00).setByte 3 0x31 }

theorem decimals_read_back_least :
    ∃ middle after, Reads [0x8000] readsTwice middle ∧
      middle.memory.word 0x0100 = 0x8000 ∧
      middle.step = (after, some (.noInput middle.pc)) ∧
      after.memory = middle.memory := by
  have hAwaits : ∀ m : Machine, m.halted = false → m.fetch.code = 0x31 →
        m.Awaits ∧ m.fetch.mode = .direct := by
    intro m hGoes hCode
    have hMode : m.fetch.mode = .direct := by
      unfold Fetched.mode
      rw [hCode]
      decide
    have hMnemonic : m.fetch.mnemonic = .deci := Mnemonic.mem_codes_iff.mp (by rw [hCode]; decide)
    exact ⟨⟨hGoes, hMnemonic, by simp [hMode]⟩, hMode⟩
  have hText : Spaced [0x8000] readsTwice.input :=
    @Spaced.word 0x8000 [] ['\t'] ['\n'] (all_eq_true.mp rfl) (by rintro _ ⟨⟩; rfl)
      (.ended (all_eq_true.mp rfl))
  have hSpec : readsTwice.fetch.spec = 0x0100 := by
    simp [fetch, readsTwice, initial, Memory.word]
    decide
  rcases hAwaits readsTwice rfl (by simp [fetch, readsTwice, initial]) with ⟨hFirst, hMode⟩
  rcases hFirst.stores hText with ⟨middle, hStep, hStored, _⟩
  have hGoal : readsTwice.address readsTwice.fetch.spec readsTwice.fetch.mode = 0x0100 := by
    rw [hMode, hSpec]
    rfl
  have hWord := hStored.word
  have hOthers := hStored.others 3
  rw [hGoal] at hWord hOthers
  have hGoes : middle.halted = false := congrArg Machine.halted hStored.same
  have hPC : middle.pc = 3 := congrArg Machine.pc hStored.same
  have hSecond : middle.Awaits := by
    refine (hAwaits middle hGoes ?_).1
    unfold fetch
    rw [hPC]
    refine (hOthers (by decide) (by decide)).trans ?_
    simp [readsTwice]
  rcases (decimals_read_back hText (.single hFirst.goes hStep)).2 with
    ⟨us, _, hWords, hReads, _, hNext⟩
  cases us with
  | nil =>
    cases hReads with
    | refl =>
      cases hPC
    | other _ hOther => exact absurd hFirst.mnemonic hOther
  | cons =>
    rcases List.cons.inj hWords with ⟨rfl, hNone⟩
    rcases append_eq_nil_iff.mp hNone.symm with ⟨rfl, rfl⟩
    rcases hNext hSecond with ⟨after, hEnds, hSame⟩
    exact ⟨middle, after, hReads, hWord, hEnds, hSame⟩

end Machine

end Pep9
