import Pep9.Compile.SymbolTable
import Pep9.Proofs.Script.Identifier

/-
  The shapes of target names. Labels that stand for no name
  are two letters, an underscore and digits; no target of a
  local variable looks like that, so that the two families
  never meet although neither looks at the other.

  Key theorems: `SymbolTable.freeTarget_variant`,
  `generated_of_variant`, `localShape_of_variant`,
  `LocalShape.not_generated`.
-/

namespace Pep9

open List
open Script (IsIdentifier)
open Script.Lexer (isWordStart isWordChar)

variable {limit : Nat} {kind : SymbolKind} {skip : Nat} {stem : String}

namespace Compile

open SymbolTable (letterAfter longestTarget freeTarget variants
  positions window localStart localPart stemPositions)

variable {c : Char} {name owner : String} {k : Nat} {array : Bool}

theorem isLower_letterAfter
    (c : Char)
    (n : Nat) :
    (letterAfter c n).isLower = true := by
  have hAll : ∀ k : Fin 26, (Char.ofNat (97 + k.val)).isLower = true := by
    decide
  have hBound : (((c.toNat : Int) - 97 + n) % 26).toNat < 26 := by omega
  exact hAll ⟨_, hBound⟩

theorem isWordStart_of_isLower (h : c.isLower = true) : isWordStart c = true :=
  Script.isWordStart_iff.mpr (.inr (.inr (Script.isLower_iff.mp h)))

theorem isWordChar_of_isLower (h : c.isLower = true) : isWordChar c = true :=
  Script.isWordChar_of_isWordStart (isWordStart_of_isLower h)

theorem isWordChar_of_isDigit (h : c.isDigit = true) : isWordChar c = true := by
  simp [isWordChar, h]

theorem not_isDigit_of_isLower (h : c.isLower = true) : c.isDigit = false :=
  Script.not_isDigit_of_isWordStart (isWordStart_of_isLower h)

theorem utf8Size_of_isWordChar (h : isWordChar c = true) : c.utf8Size = 1 := by
  have hCode := Script.isWordChar_iff.mp h
  have hSmall : c.val ≤ 0x7f := by
    change c.toNat ≤ 127
    omega
  simp [Char.utf8Size, hSmall]

theorem utf8ByteSize_of_wordChars {cs : List Char}
    (h : ∀ c ∈ cs, isWordChar c = true) :
    (String.ofList cs).utf8ByteSize = cs.length := by
  induction cs with
  | nil => rfl
  | cons c _ ih =>
    rw [String.ofList_cons, String.utf8ByteSize_append, String.utf8ByteSize_singleton,
      utf8Size_of_isWordChar (h c mem_cons_self),
      ih (fun d hD => h d (mem_cons_of_mem _ hD)), length_cons]
    omega

structure IsTarget (name : String) : Prop where
  nonempty : name.toList ≠ []
  chars : ∀ c ∈ name.toList, isWordChar c = true
  short : name.toList.length ≤ longestTarget

/- Targets are short also in bytes. -/
theorem IsTarget.utf8ByteSize_le (h : IsTarget name) :
    name.utf8ByteSize ≤ longestTarget := by
  have hSize := utf8ByteSize_of_wordChars h.chars
  rw [String.ofList_toList] at hSize
  exact hSize ▸ h.short

/- A label that stands for no name. -/
def Generated (name : String) : Prop :=
  ∃ a b digits, name.toList = a :: b :: '_' :: digits ∧ a.isLower = true ∧ b.isLower = true ∧
    digits ≠ [] ∧ ∀ d ∈ digits, d.isDigit = true

/-
  What the target of a local variable looks like: that of an
  array ends in an underscore, and behind the start of all
  others is no digit. The start has one letter less for a
  function with a name of one letter.
-/
inductive LocalShape (name : String) : Prop where
  | array (h : name.toList.getLast? = some '_')
  | shortOwner (h : name.toList[1]? = some '_')
  | longOwner {c : Char} (h : name.toList[3]? = some c) (hDigit : c.isDigit = false)

/- The two families of names are apart. -/
theorem LocalShape.not_generated (hLocal : LocalShape name) :
    ¬ Generated name := by
  rintro ⟨_, _, digits, hName, _, hB, hSome, hDigits⟩
  cases hLocal with
  | array hLast =>
    have hDrop : name.toList.getLast? = digits.getLast? := by
      rw [hName]
      cases digits with
      | nil => exact absurd rfl hSome
      | cons => simp [getLast?_cons_cons]
    rw [hDrop] at hLast
    have hDigit := hDigits '_' (mem_of_getLast? hLast)
    revert hDigit
    decide
  | shortOwner hSecond =>
    rw [hName] at hSecond
    simp only [getElem?_cons_succ, getElem?_cons_zero, Option.some.injEq] at hSecond
    rw [hSecond] at hB
    revert hB
    decide
  | longOwner hFourth hDigit =>
    rw [hName] at hFourth
    simp only [getElem?_cons_succ] at hFourth
    have hMem := mem_of_getElem? hFourth
    rw [hDigits _ hMem] at hDigit
    cases hDigit

/- A text itself, or with a letter at one of the positions. -/
def Variant (window : String) (positions : List Nat) (target : String) : Prop :=
  target = window ∨ ∃ p ∈ positions, ∃ n, target.toList =
        window.toList.modify p (letterAfter · n)

namespace Variant

variable {window target : String} {positions : List Nat}

variable (h : Variant window positions target)
include h

/- A variant is as long as its window. -/
theorem length_eq :
    target.toList.length = window.toList.length := by
  rcases h with rfl | ⟨_, _, _, hChars⟩
  · rfl
  · rw [hChars, length_modify]

theorem getElem?_of_notMem (hK : k ∉ positions) :
    target.toList[k]? = window.toList[k]? := by
  rcases h with rfl | ⟨p, hP, _, hChars⟩
  · rfl
  · have hNe : p ≠ k := fun hEq => hK (hEq ▸ hP)
    rw [hChars]
    simp [hNe]

/- A character is the same or a letter. -/
theorem getElem?_cases (hC : window.toList[k]? = some c) :
    ∃ d, target.toList[k]? = some d ∧ (d = c ∨ d.isLower = true) := by
  rcases h with rfl | ⟨p, _, n, hChars⟩
  · exact ⟨c, hC, .inl rfl⟩
  · rw [hChars, getElem?_modify, hC]
    by_cases hEq : p = k
    · exact ⟨letterAfter c n, by simp [hEq], .inr (isLower_letterAfter c n)⟩
    · exact ⟨c, by simp [hEq], .inl rfl⟩

/- A variant of a target is one. -/
theorem isTarget (hWindow : IsTarget window) :
    IsTarget target where
  nonempty := by
    intro hNil
    have hLength := h.length_eq
    rw [hNil] at hLength
    exact hWindow.nonempty (eq_nil_of_length_eq_zero hLength.symm)
  chars := by
    intro _ hD
    rcases mem_iff_getElem?.mp hD with ⟨k, hK⟩
    have hLt : k < window.toList.length := by
      rw [← h.length_eq]
      exact (List.getElem?_eq_some_iff.mp hK).1
    rcases h.getElem?_cases (getElem?_eq_getElem hLt) with ⟨_, hE, hSame | hLower⟩
    · rw [hK, Option.some.injEq] at hE
      rw [hE, hSame]
      exact hWindow.chars _ (getElem_mem hLt)
    · rw [hK, Option.some.injEq] at hE
      exact isWordChar_of_isLower (hE ▸ hLower)
  short := by
    rw [h.length_eq]
    exact hWindow.short

end Variant

variable {target : String}

/- A free target is not in use and a variant of its window. -/
theorem SymbolTable.freeTarget_variant {t : SymbolTable} {window : String}
    {positions : List Nat}
    (h : t.freeTarget kind window positions = .ok target) :
    t.inUse target = false ∧ Variant window positions target := by
  unfold freeTarget at h
  split at h
  · split at h
    · next found hFound =>
      cases h
      have hFree := find?_some hFound
      have hMem := mem_of_find?_eq_some hFound
      simp only [variants, mem_flatMap, mem_map] at hMem
      rcases hMem with ⟨p, hP, i, _, hEq⟩
      refine ⟨Bool.not_eq_true' _ ▸ hFree, .inr ⟨p, hP, i + 1, ?_⟩⟩
      rw [← hEq, String.toList_ofList]
    · cases h
  · next hFree =>
    cases h
    exact ⟨Bool.eq_false_iff.mpr hFree, .inl rfl⟩

------------------------------------------------------------
-- Windows
------------------------------------------------------------

/-
  Positions that may change lie behind the start, and before
  the last character of an array.
-/
theorem mem_positions {length : Nat} :
    k ∈ positions length array skip ↔ skip ≤ k ∧ k + array.toNat < length := by
  cases array with
  | true | false =>
    simp only [positions, range_eq_range', drop_range', Bool.false_eq_true,
      if_true, if_false, mem_reverse, mem_range'_1, Bool.toNat_true, Bool.toNat_false]
    omega

theorem window_toList_subset (h : c ∈ (window limit array name).toList) :
    c ∈ name.toList := by
  unfold window at h
  split at h
  · rw [String.toList_ofList] at h
    exact mem_of_mem_drop h
  · rw [String.toList_ofList] at h
    exact mem_of_mem_take h

theorem window_length_le
    (limit : Nat)
    (array : Bool)
    (name : String) :
    (window limit array name).toList.length ≤ limit := by
  unfold window
  split
  · rw [String.toList_ofList, length_drop, String.length_toList]
    omega
  · rw [String.toList_ofList, length_take]
    omega

theorem window_ne_nil
    (hLimit : 0 < limit)
    (hName : name.toList ≠ []) :
    (window limit array name).toList ≠ [] := by
  have hLength := length_pos_iff.mpr hName
  intro hNil
  have hZero := congrArg List.length hNil
  unfold window at hZero
  split at hZero
  · rw [String.toList_ofList, length_drop, ← String.length_toList, length_nil] at hZero
    omega
  · rw [String.toList_ofList, length_take, length_nil] at hZero
    omega

/-
  A word of letters, digits and underscores that does not
  start with a digit. Other than an identifier, it may be a
  keyword.
-/
structure Spelled (name : String) : Prop where
  first : ∃ c rest, name.toList = c :: rest ∧ isWordStart c = true
  chars : ∀ c ∈ name.toList, isWordChar c = true

theorem Spelled.of_isIdentifier (h : IsIdentifier name) :
    Spelled name := ⟨h.first, h.chars⟩

theorem Spelled.ne_nil (h : Spelled name) : name.toList ≠ [] := by
  rcases h.first with ⟨c, rest, hChars, _⟩
  rw [hChars]
  exact cons_ne_nil c rest

/- What is kept of a global; only names of data are arrays. -/
def globalWindow (kind : SymbolKind) (name : String) : String :=
  window longestTarget (kind = .data && isArrayName name) name

/- What is kept of the name of a global is a target. -/
theorem globalWindow_isTarget (h : Spelled name) :
    IsTarget (globalWindow kind name) where
  nonempty := window_ne_nil (by decide) h.ne_nil
  chars := fun c hC => h.chars c (window_toList_subset hC)
  short := window_length_le _ _ name

theorem localStart_toList (owner : String) :
    (localStart owner).toList = owner.toList.take 2 ++ ['_'] := by
  rw [localStart, String.toList_append, String.toList_ofList]
  rfl

/- What is kept of a local, behind the start of its owner. -/
def localWindow (owner : String) (name : String) : String :=
  localStart owner ++ window localPart (isArrayName name) name

theorem localWindow_toList (owner name : String) :
    (localWindow owner name).toList =
      (localStart owner).toList ++ (window localPart
          (isArrayName name) name).toList := by
  rw [localWindow, String.toList_append]

/- What is made of two names is a target. -/
theorem localWindow_isTarget
    (hOwner : Spelled owner)
    (hName : Spelled name) :
    IsTarget (localWindow owner name) where
  nonempty := by
    rw [localWindow_toList]
    exact append_ne_nil_of_right_ne_nil _ (window_ne_nil (by decide) hName.ne_nil)
  chars := by
    intro c hC
    rw [localWindow_toList, localStart_toList] at hC
    rcases mem_append.mp hC with hStart | hPart
    · rcases mem_append.mp hStart with hOwned | hMark
      · exact hOwner.chars c (mem_of_mem_take hOwned)
      · rw [mem_singleton.mp hMark]
        decide
    · exact hName.chars c (window_toList_subset hPart)
  short := by
    have hPart := window_length_le localPart (isArrayName name) name
    rw [localWindow_toList, localStart_toList, length_append,
      length_append, length_take, length_singleton]
    have hFive : localPart = 5 := rfl
    have hEight : longestTarget = 8 := rfl
    omega

theorem getLast?_of_isArrayName (h : isArrayName name = true) :
    name.toList.getLast? = some '_' := by
  unfold isArrayName at h
  simp only [Bool.and_eq_true, decide_eq_true_eq] at h
  exact h.1.2

/- What is kept of the name of an array ends as the name does. -/
theorem window_getLast?
    (hLimit : 0 < limit)
    (h : isArrayName name = true) :
    (window limit true name).toList.getLast? = some '_' := by
  have hLast := getLast?_of_isArrayName h
  have hPos : name.toList.length ≠ 0 := by
    intro hNil
    rw [length_eq_zero_iff.mp hNil] at hLast
    cases hLast
  rw [window, if_pos rfl, String.toList_ofList, getLast?_drop, hLast, if_neg]
  rw [String.length_toList] at *
  omega

/- The last character of an array stays. -/
theorem Variant.getLast? {window : String}
    (h : Variant window (positions window.length true skip) target) :
    target.toList.getLast? = window.toList.getLast? := by
  rw [getLast?_eq_getElem?, getLast?_eq_getElem?, h.length_eq]
  refine h.getElem?_of_notMem fun hMem => ?_
  have hLt := (mem_positions.mp hMem).2
  rw [String.length_toList, Bool.toNat_true] at hLt
  omega

/- The start of a window stays, if no position in it may change. -/
theorem Variant.start {window : String} {positions : List Nat}
    {start : List Char}
    (h : Variant window positions target)
    (hStart : start <+: window.toList)
    (hBehind : ∀ p ∈ positions, start.length ≤ p) :
    start <+: target.toList := by
  rw [prefix_iff_getElem?] at hStart ⊢
  intro k hK
  rw [h.getElem?_of_notMem fun hMem => absurd (hBehind k hMem) (Nat.not_le.mpr hK)]
  exact hStart k hK

/- The target of a local starts as its function does. -/
theorem localStart_of_variant
    (h : Variant (localWindow owner name)
      (positions (localWindow owner name).length array
        (localStart owner).length) target) :
    (localStart owner).toList <+: target.toList := by
  refine h.start ?_ fun p hP => ?_
  · rw [localWindow_toList]
    exact prefix_append _ _
  · rw [String.length_toList]
    exact (mem_positions.mp hP).1

section

variable (hOwner : IsIdentifier owner) (hName : IsIdentifier name)
include hOwner hName

/- The target of another local has no digit behind its start. -/
theorem localShape_scalar
    (hArray : isArrayName name = false)
    (h : Variant (localWindow owner name)
      (positions (localWindow owner name).length false
        (localStart owner).length) target) :
    LocalShape target := by
  rcases hOwner.first with ⟨_, others, hChars, _⟩
  have hStart := localStart_toList owner
  rw [hChars] at hStart
  cases others with
  | nil =>
    rcases hStart ▸ localStart_of_variant h with ⟨_, hTarget⟩
    refine .shortOwner ?_
    rw [← hTarget]
    rfl
  | cons =>
    rcases hName.first with ⟨c, _, hNameChars, hC⟩
    have hFourth : (localWindow owner name).toList[3]? = some c := by
      rw [localWindow_toList, hStart, hArray, window,
        if_neg Bool.false_ne_true, String.toList_ofList, hNameChars]
      rfl
    rcases h.getElem?_cases hFourth with ⟨_, hD, hSame | hLower⟩
    · exact .longOwner hD (hSame ▸ Script.not_isDigit_of_isWordStart hC)
    · exact .longOwner hD (not_isDigit_of_isLower hLower)

/- The target of a local has the shape of a local. -/
theorem localShape_of_variant
    (h : Variant (localWindow owner name)
      (positions (localWindow owner name).length
        (isArrayName name) (localStart owner).length) target) :
    LocalShape target := by
  cases hArray : isArrayName name with
  | true =>
    rw [hArray] at h
    refine .array ?_
    rw [h.getLast?, localWindow_toList, hArray, getLast?_append,
      window_getLast? (by decide) hArray]
    rfl
  | false =>
    rw [hArray] at h
    exact localShape_scalar hOwner hName hArray h

end

/- Two letters and an underscore. -/
def IsStem (stem : String) : Prop :=
  ∃ a b, stem.toList = [a, b, '_'] ∧ a.isLower = true ∧ b.isLower = true

theorem ne_underscore_of_isLower (h : c.isLower = true) : c ≠ '_' := by
  rintro rfl
  revert h
  decide

theorem stemPositions_eq (h : IsStem stem) :
    stemPositions stem = [1, 0] := by
  rcases h with ⟨_, _, hChars, hA, hB⟩
  simp [stemPositions, hChars, zipIdx,
    ne_underscore_of_isLower hA, ne_underscore_of_isLower hB]

/- The numeral of a natural number has digits only. -/
theorem natNumeral (n : Nat) :
    (toString (n : Int)).toList ≠ [] ∧
      ∀ d ∈ (toString (n : Int)).toList, d.isDigit = true := by
  have hEq : (toString (n : Int)).toList = Nat.toDigits 10 n := Nat.toList_repr
  rw [hEq]
  exact ⟨Nat.toDigits_ne_nil, fun d hD => Nat.isDigit_of_mem_toDigits (by decide) (by decide) hD⟩

/- A label made from a stem and a number. -/
theorem generated_of_variant {id : Nat}
    (hStem : IsStem stem)
    (h : Variant (stem ++ toString (id : Int)) (stemPositions stem) target) :
    Generated target := by
  rw [stemPositions_eq hStem] at h
  rcases hStem with ⟨a, b, hChars, hA, hB⟩
  rcases natNumeral id with ⟨hSome, hDigits⟩
  have hWindow : (stem ++ toString (id : Int)).toList =
        a :: b :: '_' :: (toString (id : Int)).toList := by
    rw [String.toList_append, hChars]
    rfl
  rcases h with rfl | ⟨_, hP, n, hTarget⟩
  · exact ⟨a, b, _, hWindow, hA, hB, hSome, hDigits⟩
  · rw [hWindow] at hTarget
    rcases mem_cons.mp hP with rfl | hP
    · exact ⟨a, _, _, hTarget, hA, isLower_letterAfter b n, hSome, hDigits⟩
    · rw [mem_singleton.mp hP] at hTarget
      exact ⟨_, b, _, hTarget, isLower_letterAfter a n, hB, hSome, hDigits⟩

/- Generated labels that are short enough are targets. -/
theorem Generated.isTarget
    (h : Generated name)
    (hShort : name.toList.length ≤ longestTarget) :
    IsTarget name := by
  rcases h with ⟨_, _, _, hName, hA, hB, _, hDigits⟩
  refine ⟨?_, ?_, hShort⟩
  · rw [hName]
    exact cons_ne_nil _ _
  · intro c hC
    rw [hName] at hC
    simp only [mem_cons] at hC
    rcases hC with rfl | rfl | rfl | hC
    · exact isWordChar_of_isLower hA
    · exact isWordChar_of_isLower hB
    · decide
    · exact isWordChar_of_isDigit (hDigits c hC)

end Compile

end Pep9
