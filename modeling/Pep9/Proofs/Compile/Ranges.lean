import Mathlib
import Pep9.Compile.Generate
import Pep9.Proofs.Compile.Recorded

/-
  The ranges of lengths and of literal indices. Both are
  doubled before they are compared, in numbers of 64 bits, so
  that what is accepted is in range only while the double is
  one of these numbers.

  Key theorems: `toInt_double`, `bytesOfLength_eq_ok`,
  `checkWord_double`, `doubles_accepted`.
-/

namespace Pep9

open Result
open Script (Expr Stmt)

variable {size : Int64} {value : Expr}

namespace Compile

/- The double of a number, unless it leaves the 64 bits. -/
theorem toInt_double (n : Int64) :
    (n * 2).toInt = if n.toInt < -2 ^ 62 then 2 * n.toInt + 2 ^ 64
      else if n.toInt < 2 ^ 62 then 2 * n.toInt
      else 2 * n.toInt - 2 ^ 64 := by
  have hLow := n.le_toInt
  have hHigh := n.toInt_lt
  rw [Int64.toInt_mul, show (2 : Int64).toInt = 2 from rfl]
  simp only [Int.bmod_def]
  split
  · omega
  · omega

/- A first value that tells the number of elements. -/
inductive HasLength : Expr → Int64 → Prop where
  | repeated (elements : List Expr) (n : Int64) :
      HasLength (.arith .mul (.list elements) (.literal n)) n
  | listed (elements : List Expr) (n : Int64) (hCount : n.toInt = elements.length) :
      HasLength (.list elements) n

/-
  The size of an array of some length: two bytes for each
  element, or what is left of them in 64 bits.
-/
inductive SizeFor (n : Int64) (size : Int64) : Prop where
  | exact (hSize : size.toInt = 2 * n.toInt) (hLeast : 2 ≤ 2 * n.toInt)
      (hMost : 2 * n.toInt ≤ 65534)
  | wrapped (hFar : 2 ^ 62 ≤ n.toInt) (hSize : size.toInt = 2 * n.toInt - 2 ^ 64)

variable {n : Int64}

/- The lengths that are accepted, with their sizes. -/
theorem bytesOfLength_eq_ok : bytesOfLength n = .ok size ↔ SizeFor n size := by
  have hDouble := toInt_double n
  have hHigh := n.toInt_lt
  have hRefused : (n ≤ 0 ∨ n * 2 > 65535) ↔ (n.toInt ≤ 0 ∨ 65535 < (n * 2).toInt) := by
    rw [Int64.le_iff_toInt_le, gt_iff_lt, Int64.lt_iff_toInt_lt]
    rfl
  unfold bytesOfLength
  by_cases hBad : n ≤ 0 ∨ n * 2 > 65535
  · rw [if_pos hBad]
    rw [hRefused] at hBad
    refine ⟨nofun, ?_⟩
    rintro (⟨hSize, hLeast, hMost⟩ | ⟨hFar, hSize⟩)
    · omega
    · omega
  · rw [if_neg hBad, Except.ok.injEq]
    rw [hRefused] at hBad
    constructor
    · rintro rfl
      by_cases hFar : n.toInt < 2 ^ 62
      · apply SizeFor.exact
        · omega
        · omega
        · omega
      · apply SizeFor.wrapped
        · omega
        · omega
    · rintro (⟨hSize, hLeast, hMost⟩ | ⟨hFar, hSize⟩)
      · apply Int64.toInt_inj.mp
        omega
      · apply Int64.toInt_inj.mp
        omega

theorem HasLength.arrayBytes_eq_ok
    (h : HasLength value n)
    (usual : Int64) :
    arrayBytes usual value = .ok size ↔ SizeFor n size := by
  cases h with
  | repeated => exact bytesOfLength_eq_ok
  | listed elements n hCount =>
    have hSame : Int64.ofNat elements.length = n := by
      rw [← Int64.ofInt_eq_ofNat, ← hCount, Int64.ofInt_toInt]
    rw [← bytesOfLength_eq_ok, ← hSame]
    rfl

/- Where an array is stored, its size is that of its value. -/
theorem storageOf_array {usual bytes : Int64} {name : String}
    (h : storageOf usual name value = .ok (.array bytes)) :
    arrayBytes usual value = .ok bytes := by
  unfold storageOf at h
  split at h
  · rcases seq h with ⟨_, _, hDone⟩
    by_cases hConstant : isConstantName name = true
    · rw [if_pos hConstant] at hDone
      cases hDone
    · rw [if_neg hConstant] at hDone
      cases hDone
  · by_cases hConstant : isConstantName name = true
    · rw [if_pos hConstant] at h
      cases h
    · rw [if_neg hConstant] at h
      by_cases hArray : isArrayName name = true
      · rw [if_pos hArray] at h
        rcases seq h with ⟨_, hSize, hDone⟩
        cases hDone
        exact hSize
      · rw [if_neg hArray] at h
        cases h

/-
  A literal index whose offset fits a word, exactly or after
  it has lost its upper bits.
-/
inductive IndexInRange (n : Int64) : Prop where
  | exact (hLeast : -32768 ≤ 2 * n.toInt) (hMost : 2 * n.toInt ≤ 65535)
  | above (hFar : 2 ^ 64 - 32768 ≤ 2 * n.toInt)
  | below (hFar : 2 * n.toInt ≤ 65535 - 2 ^ 64)

theorem checkWord_double : checkWord (n * 2) = .ok () ↔ IndexInRange n := by
  have hDouble := toInt_double n
  have hLow := n.le_toInt
  have hHigh := n.toInt_lt
  have hFits : fitsWord (n * 2) = true ↔ -32768 ≤ (n * 2).toInt ∧ (n * 2).toInt ≤ 65535 := by
    unfold fitsWord
    rw [Bool.and_eq_true, decide_eq_true_eq, decide_eq_true_eq,
      Int64.le_iff_toInt_le, Int64.le_iff_toInt_le]
    rfl
  have hAccepted : checkWord (n * 2) = .ok () ↔ fitsWord (n * 2) = true := by
    unfold checkWord
    split
    · next hTrue => exact ⟨fun _ => hTrue, fun _ => rfl⟩
    · next hFalse => exact ⟨nofun, fun hTrue => absurd hTrue hFalse⟩
  rw [hAccepted, hFits]
  constructor
  · rintro ⟨_, _⟩
    by_cases hBelow : n.toInt < -2 ^ 62
    · apply IndexInRange.below
      omega
    · by_cases hAbove : n.toInt < 2 ^ 62
      · apply IndexInRange.exact
        · omega
        · omega
      · apply IndexInRange.above
        omega
  · rintro (⟨hLeast, hMost⟩ | hFar | hFar)
    · omega
    · omega
    · omega

theorem indexName?_literal {base : String} :
    (∃ name, indexName? (.name base) (.literal n) = .ok name) ↔ IndexInRange n := by
  rw [← checkWord_double]
  constructor
  · rintro ⟨_, h⟩
    rcases seq h with ⟨_, hCheck, _⟩
    exact hCheck
  · intro hCheck
    exact ⟨none, bind_eq_ok.mpr ⟨(), hCheck, rfl⟩⟩

theorem indexCode_literal {ctx : Context} :
    (∃ code, ctx.indexCode (.literal n) = .ok code) ↔ IndexInRange n := by
  rw [← checkWord_double]
  constructor
  · rintro ⟨_, h⟩
    rcases seq h with ⟨_, hCheck, _⟩
    exact hCheck
  · intro hCheck
    exact ⟨_, bind_eq_ok.mpr ⟨(), hCheck, rfl⟩⟩

/-
  The first value of an array with a known length has a length
  from 1 to 32767, and the recorded size is its double, unless
  the length is 2^62 or more: then the size is the double less
  2^64. A literal index is accepted if its double is from
  -32768 to 65535, or is so in 64 bits.
-/
theorem doubles_accepted (usual : Int64) :
    (∀ stmts globals, analyzeGlobals usual stmts = .ok globals →
        ∀ v ∈ globals.vars, ∀ bytes, v.storage = .array bytes → ∃ value,
            firstValue? (assignedIn (flatten 0 stmts)) v.name = some value ∧
              ∀ n, HasLength value n → SizeFor n bytes) ∧
      (∀ name params body sig, analyzeFunction usual name params body = .ok sig →
          ∀ l ∈ sig.locals, isArrayName l.name = true → ∃ value,
              firstValue? (assignedIn (flatten 0 body)) l.name = some value ∧
                ∀ n, HasLength value n → SizeFor n l.size) ∧
      (∀ value n size, HasLength value n →
        (arrayBytes usual value = .ok size ↔ SizeFor n size)) ∧
      (∀ base n, (∃ name, indexName? (.name base) (.literal n) = .ok name) ↔
        IndexInRange n) ∧
      (∀ (ctx : Context) n, (∃ code, ctx.indexCode (.literal n) = .ok code) ↔
        IndexInRange n) := by
  refine ⟨?_, ?_, ?_, ?_, ?_⟩
  · intro _ _ h v hV _ hArray
    rcases (analyzeGlobals_recorded h).first (v.name, v.storage)
      (List.mem_map_of_mem hV) with ⟨value, hFirst, hStorage⟩
    refine ⟨value, hFirst, ?_⟩
    intro _ hLength
    rw [hArray] at hStorage
    exact (hLength.arrayBytes_eq_ok usual).mp (storageOf_array hStorage)
  · intro _ _ _ _ h l hL hArray
    rcases (analyzeFunction_recorded h).locals.first (l.name, l.size)
      (List.mem_map_of_mem hL) with ⟨value, hFirst, hSize⟩
    refine ⟨value, hFirst, ?_⟩
    intro _ hLength
    unfold Signature.localSize at hSize
    rw [if_pos hArray] at hSize
    exact (hLength.arrayBytes_eq_ok usual).mp hSize
  · intro _ _ _ hLength
    exact hLength.arrayBytes_eq_ok usual
  · intro _ _
    exact indexName?_literal
  · intro _ _
    exact indexCode_literal

/-
  `a_ = [0] * 32767`
  `a_[32767] = 1`
-/
def inRange : List Stmt :=
  [.assign 1 (.name "a_") [] (.arith .mul (.list [.literal 0]) (.literal 32767)),
    .assign 2 (.element (.name "a_") (.literal 32767)) [] (.literal 1)]

/- The greatest length, and the greatest index. -/
theorem doubles_accepted_greatest :
    analyzeGlobals 200 inRange = .ok ⟨[⟨"a_", .array 65534⟩], []⟩ ∧
      SizeFor 32767 65534 ∧ IndexInRange 32767 := by
  have hAnalyzed : analyzeGlobals 200 inRange = .ok ⟨[⟨"a_", .array 65534⟩], []⟩ := rfl
  refine ⟨hAnalyzed, ?_, ?_⟩
  · rcases (doubles_accepted 200).1 inRange _ hAnalyzed ⟨"a_", .array 65534⟩
      List.mem_cons_self 65534 rfl with ⟨_, hFirst, hSize⟩
    cases hFirst
    exact hSize 32767 (.repeated _ _)
  · exact ((doubles_accepted 200).2.2.2.1 "a_" 32767).mp ⟨none, rfl⟩

/- A length of 2^62, and the greatest literal as an index. -/
def farOut : String :=
  "a_ = [0] * 4611686018427387904\na_[9223372036854775807] = 1\n"

/-
  The double of the length is 2^63, and that of the index is
  2^64 - 2, but both are accepted: the size is -2^63, and code
  for the index is made in every context.
-/
theorem farOut_accepted :
    (∃ stmts, Script.parseSource farOut = .ok stmts ∧ ∃ globals,
          analyzeGlobals 200 stmts = .ok globals ∧
            globals = ⟨[⟨"a_", .array (-9223372036854775808)⟩], []⟩) ∧
      ∀ ctx : Context, ∃ code,
        ctx.indexCode (.literal 9223372036854775807) = .ok code := by
  have hAccepted : ((Script.parseSource farOut).toOption.any fun stmts =>
        (analyzeGlobals 200 stmts).toOption.any fun globals =>
          globals = ⟨[⟨"a_", .array (-9223372036854775808)⟩], []⟩) =
        true := by
    decide +kernel
  constructor
  · rcases Result.any_eq_true.mp hAccepted with ⟨stmts, hParsed, hRest⟩
    rcases Result.any_eq_true.mp hRest with ⟨globals, hAnalyzed, hEq⟩
    exact ⟨stmts, hParsed, globals, hAnalyzed, of_decide_eq_true hEq⟩
  · intro _
    exact ⟨_, rfl⟩

end Compile

end Pep9
