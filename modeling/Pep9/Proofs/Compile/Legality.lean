import Pep9.Proofs.Compile.Tables
import Pep9.Proofs.Assembly.Numbers
import Pep9.Assembly.Assembler

/-
  Targets as symbols of the assembler. Every target is short
  enough, and it is a symbol unless it is the end of the name
  of a global array that is cut in front of a digit.

  Key theorems: `parse_label`, `global_symbol`,
  `Spelling.answer`, `answers_legal`.
-/

namespace Pep9

open Assembly (isSymbol longestSymbol Line Plan IsWord)
open List Result
open Text (isBlank)
open Script.Lexer (isWordStart isWordChar)

variable {t' : SymbolTable}

namespace Assembly

variable {c : Char}

/- A letter or an underscore starts a symbol. -/
theorem startsSymbol_of_isWordStart (h : isWordStart c = true) :
    startsSymbol c = true := by
  have hAll : ∀ n : Fin 26, Text.inRanges Text.letterRanges (65 + n.val) = true ∧
        Text.inRanges Text.letterRanges (97 + n.val) = true := by
    decide
  unfold startsSymbol Text.isLetter
  rcases Script.isWordStart_iff.mp h with hScore | hUpper | hLower
  · have hSame : c = '_' := Char.toNat_inj.mp hScore
    rw [hSame]
    rfl
  · have hLetter := (hAll ⟨c.toNat - 65, by omega⟩).1
    have hCode : 65 + (c.toNat - 65) = c.toNat := by omega
    rw [← hCode, hLetter, Bool.true_or]
  · have hLetter := (hAll ⟨c.toNat - 97, by omega⟩).2
    have hCode : 97 + (c.toNat - 97) = c.toNat := by omega
    rw [← hCode, hLetter, Bool.true_or]

theorem continuesSymbol_of_isWordChar (h : isWordChar c = true) :
    continuesSymbol c = true := by
  have hAll : ∀ n : Fin 10, Text.inRanges Text.decimalDigitRanges (48 + n.val) = true := by
    decide
  rcases Bool.or_eq_true_iff.mp h with hStart | hDigit
  · have hSymbol := startsSymbol_of_isWordStart hStart
    unfold startsSymbol at hSymbol
    unfold continuesSymbol
    rw [Bool.or_right_comm, hSymbol, Bool.true_or]
  · have hBounds := Char.isDigit_iff_toNat.mp hDigit
    have hEnds : '0'.toNat = 48 ∧ '9'.toNat = 57 := ⟨rfl, rfl⟩
    have hDecimal := hAll ⟨c.toNat - 48, by omega⟩
    have hCode : 48 + (c.toNat - 48) = c.toNat := by omega
    unfold continuesSymbol Text.isDecimalDigit
    rw [← hCode, hDecimal, Bool.or_true, Bool.true_or]

/- Characters of names make a symbol unless a digit is first. -/
theorem isSymbol_iff {s : String}
    (hSome : s.toList ≠ [])
    (hChars : ∀ c ∈ s.toList, isWordChar c = true) :
    isSymbol s = true ↔ ¬ ∃ c, s.toList.head? = some c ∧ c.isDigit = true := by
  unfold isSymbol
  cases hCons : s.toList with
  | nil => exact absurd hCons hSome
  | cons c rest =>
    rw [hCons] at hChars
    have hRest : rest.all continuesSymbol = true :=
      all_eq_true.mpr fun d hD =>
        continuesSymbol_of_isWordChar (hChars d (mem_cons_of_mem c hD))
    simp only [hRest, Bool.and_true, head?_cons, Option.some.injEq, exists_eq_left']
    constructor
    · intro hStart hDigit
      rw [not_startsSymbol_of_isDigit hDigit] at hStart
      cases hStart
    · intro hDigit
      have hWord := hChars c mem_cons_self
      rcases Bool.or_eq_true_iff.mp hWord with hStart | hIs
      · exact startsSymbol_of_isWordStart hStart
      · exact absurd hIs hDigit

/- Blanks are cut off the end only up to what is no blank. -/
theorem trim_front {front : List Char} {d : Char}
    (more : List Char)
    (hFirst : (front ++ [d]).head? = some c)
    (hC : isBlank c = false)
    (hD : isBlank d = false) :
    ∃ kept, (Text.trim (String.ofList (front ++ d :: more))).toList = front ++ d :: kept := by
  have hHead : (front ++ d :: more).dropWhile isBlank = front ++ d :: more := by
    cases front with
    | nil => simp [hD]
    | cons e =>
      have hEq : e = c := by simpa using hFirst
      simp [hEq, hC]
  have hLast : (more.reverse ++ d :: front.reverse).dropWhile isBlank =
        more.reverse.dropWhile isBlank ++ d :: front.reverse := by
    rw [dropWhile_append]
    split
    · next hNone =>
      rw [List.isEmpty_iff.mp hNone]
      simp [hD]
    · rfl
  refine ⟨(more.reverse.dropWhile isBlank).reverse, ?_⟩
  unfold Text.trim
  rw [String.toList_ofList, String.toList_ofList, hHead,
    reverse_append, reverse_cons, append_assoc, singleton_append, hLast]
  simp

/-
  A symbol and a colon are read as a label, whatever follows
  them on the line.
-/
theorem parse_label {label : String}
    (hWord : IsWord label)
    (hSymbol : isSymbol label = true)
    (rest : String) :
    ∃ statement,
      Line.parse (label ++ ":" ++ rest) = .ok ⟨some label, statement⟩ := by
  rcases exists_cons_of_ne_nil hWord.nonempty with ⟨c, front, hFront⟩
  have hPlain : isBlank c = false := (hWord.chars c (hFront ▸ mem_cons_self)).blank
  have hComment : ∀ e ∈ label.toList, decide (e ≠ ';') = true := by
    intro e hE
    simpa using (hWord.chars e hE).comment
  have hTaken : (label ++ ":" ++ rest).toList.takeWhile (· ≠ ';') =
        label.toList ++ ':' :: rest.toList.takeWhile (· ≠ ';') := by
    rw [String.toList_append, String.toList_append, append_assoc,
      takeWhile_append_of_pos hComment]
    rfl
  have hFirst : (label.toList ++ [':']).head? = some c := by
    rw [hFront]
    rfl
  rcases trim_front (rest.toList.takeWhile (· ≠ ';')) hFirst hPlain (by decide) with ⟨kept, hKept⟩
  refine ⟨.parse (String.ofList kept), ?_⟩
  have hLine : Line.uncommented (label ++ ":" ++ rest) =
        String.ofList (label.toList ++ ':' :: kept) := by
    unfold Line.uncommented
    rw [hTaken, ← hKept, String.ofList_toList]
  rw [parse_of_uncommented hWord hLine, if_pos hSymbol]

end Assembly

namespace Compile

/-
  A target that the assembler takes as a label: it is a
  symbol, it is read as the label of a line, and it is not
  too long to be given an address.
-/
structure Legal (target : String) : Prop where
  symbol : isSymbol target = true
  short : target.utf8ByteSize ≤ longestSymbol
  read : ∀ rest, ∃ statement, Line.parse (target ++ ":" ++ rest) =
        .ok ⟨some target, statement⟩
  bound : ∀ (plan : Plan) (name : String),
      plan.bindLabel (some target) ≠ .error (.longSymbol name)

variable {name target : String}

theorem IsTarget.legal
    (h : IsTarget target)
    (hSymbol : isSymbol target = true) :
    Legal target where
  symbol := hSymbol
  short := h.utf8ByteSize_le
  read := Assembly.parse_label (Assembly.isWord_of_isTarget h) hSymbol
  bound := by
    intro _ _ hLong
    have hShort : ¬ target.utf8ByteSize > longestSymbol := Nat.not_lt.mpr h.utf8ByteSize_le
    unfold Plan.bindLabel at hLong
    dsimp only at hLong
    rw [if_neg hShort] at hLong
    split at hLong
    · cases hLong
    · cases hLong

/-
  The name of an array is cut in front of a digit, and the
  digit is what its target starts with.
-/
def KeepsDigit (name target : String) : Prop :=
  isArrayName name = true ∧ ∃ d, d.isDigit = true ∧
      name.toList[name.length - SymbolTable.longestTarget]? = some d ∧ target.toList.head? = some d

theorem KeepsDigit.not_symbol
    (h : KeepsDigit name target)
    (hTarget : IsTarget target) :
    isSymbol target ≠ true := by
  rcases h with ⟨_, d, hDigit, _, hHead⟩
  rw [ne_eq, Assembly.isSymbol_iff hTarget.nonempty hTarget.chars, not_not]
  exact ⟨d, hHead, hDigit⟩

/- A global target is a symbol, or has a digit in front. -/
theorem global_symbol {kind : SymbolKind} {positions : List Nat}
    (hName : Spelled name)
    (h : Variant (globalWindow kind name) positions target) :
    isSymbol target = true ∨ kind = .data ∧ KeepsDigit name target := by
  have hTarget := h.isTarget (globalWindow_isTarget hName)
  by_cases hSymbol : isSymbol target = true
  · exact .inl hSymbol
  right
  rw [Assembly.isSymbol_iff hTarget.nonempty hTarget.chars, not_not] at hSymbol
  rcases hSymbol with ⟨d, hHead, hDigit⟩
  -- The digit stood first in what was kept of the name.
  have hKept : (globalWindow kind name).toList[0]? = some d := by
    have hWindow : IsTarget (globalWindow kind name) := globalWindow_isTarget hName
    rcases exists_cons_of_ne_nil hWindow.nonempty with ⟨c, _, hCons⟩
    have hFirst : (globalWindow kind name).toList[0]? = some c := by
      rw [hCons]
      rfl
    rw [head?_eq_getElem?] at hHead
    rcases h.getElem?_cases hFirst with ⟨_, hE, hSame | hLower⟩
    · rw [hE, Option.some.injEq] at hHead
      rw [hFirst, ← hSame, hHead]
    · rw [hE, Option.some.injEq] at hHead
      rw [hHead] at hLower
      rw [not_isDigit_of_isLower hLower] at hDigit
      cases hDigit
  unfold globalWindow SymbolTable.window at hKept
  by_cases hArray : (kind = .data && isArrayName name) = true
  · rw [if_pos hArray, String.toList_ofList, getElem?_drop, Nat.add_zero] at hKept
    rw [Bool.and_eq_true, decide_eq_true_eq] at hArray
    exact ⟨hArray.1, hArray.2, d, hDigit, hKept, hHead⟩
  · -- The start of a name that is spelled right is no digit.
    rw [if_neg hArray, String.toList_ofList] at hKept
    rcases hName.first with ⟨c, _, hCons, hStart⟩
    rw [hCons] at hKept
    have hSame : c = d := by simpa [SymbolTable.longestTarget] using hKept
    rw [← hSame, Script.not_isDigit_of_isWordStart hStart] at hDigit
    cases hDigit

/- The target of a local starts as its function does. -/
theorem local_symbol {owner : String}
    (hOwner : Spelled owner)
    (hName : Spelled name)
    (h : Variant (localWindow owner name) (SymbolTable.positions (localWindow owner name).length
        (isArrayName name) (SymbolTable.localStart owner).length) target) :
    isSymbol target = true := by
  have hTarget := h.isTarget (localWindow_isTarget hOwner hName)
  rcases hOwner.first with ⟨c, _, hCons, hStart⟩
  have hFirst : target.toList.head? = some c := by
    rcases localStart_of_variant h with ⟨_, hChars⟩
    rw [← hChars, localStart_toList, hCons]
    rfl
  rw [Assembly.isSymbol_iff hTarget.nonempty hTarget.chars]
  rintro ⟨_, hHead, hDigit⟩
  rw [hFirst, Option.some.injEq] at hHead
  rw [← hHead, Script.not_isDigit_of_isWordStart hStart] at hDigit
  cases hDigit

/- Generated labels start with a letter. -/
theorem Generated.symbol
    (h : Generated name)
    (hTarget : IsTarget name) :
    isSymbol name = true := by
  rcases h with ⟨a, _, _, hName, hA, _⟩
  rw [Assembly.isSymbol_iff hTarget.nonempty hTarget.chars, hName]
  rintro ⟨d, hHead, hDigit⟩
  have hSame : a = d := by simpa using hHead
  rw [← hSame, not_isDigit_of_isLower hA] at hDigit
  cases hDigit

------------------------------------------------------------
-- Requests with Names of the Language
------------------------------------------------------------

/- A request with names of the language and numbered stems. -/
def Request.Named : Request → Prop
  | bindGlobal _ name => Spelled name
  | bindLocal _ name owner => Spelled name ∧ Spelled owner
  | generate stem number => IsStem stem ∧ 0 ≤ number
  | child | merge _ => True

/-
  What such requests keep: all bindings have targets, and
  only global data may have one that is no symbol.
-/
def Spelling (t : SymbolTable) : Prop :=
  ∀ k, ∀ b ∈ t.bindings k, IsTarget b.target ∧ (isSymbol b.target = true ∨
      k = .data ∧ b.scope = .global ∧ KeepsDigit b.source b.target)

/- What a request for a target may return. -/
def Spells (request : Request) (target : String) : Prop :=
  IsTarget target ∧ (isSymbol target = true ∨
      ∃ name, request = .bindGlobal .data name ∧ KeepsDigit name target)

namespace Spelling

variable {t : SymbolTable}

theorem empty : Spelling .empty := by
  intro k _ hB
  cases k <;> cases hB

section

variable (h : Spelling t)
include h

theorem bind {new : Binding}
    (hTarget : IsTarget new.target)
    (hSymbol :
      isSymbol new.target = true ∨ new.kind = .data ∧ new.scope = .global ∧
          KeepsDigit new.source new.target) :
    Spelling (t.bind new) := by
  intro k b hB
  rw [SymbolTable.bindings_bind] at hB
  split at hB
  · next hKind =>
    rcases Bindings.mem_of_mem_set hB with rfl | hOld
    · rw [hKind]
      exact ⟨hTarget, hSymbol⟩
    · exact h k b hOld
  · exact h k b hB

/- Only bindings matter. -/
theorem congr (hBindings : ∀ k, t'.bindings k = t.bindings k) :
    Spelling t' := by
  intro k b hB
  rw [hBindings] at hB
  exact h k b hB

theorem reserve
    (kind : SymbolKind)
    (target : String) :
    Spelling (t.reserve kind target) := by
  apply h.congr
  intro k
  cases kind <;> cases k <;> rfl

theorem merge (other : SymbolTable) : Spelling (t.merge other) := by
  unfold SymbolTable.merge
  refine foldlRecOn other.labels _ ?_ fun _ hAcc b _ => Spelling.reserve hAcc .label b.target
  exact foldlRecOn other.data _ h fun _ hAcc b _ => Spelling.reserve hAcc .data b.target

theorem child : Spelling t.child := by
  intro k b hB
  cases k with
  | data => exact h .data b (SymbolTable.child_data hB).1
  | label =>
    rcases SymbolTable.child_labels hB with ⟨c, hC, _, hTarget⟩
    rcases h .label c hC with ⟨hIs, hSymbol | ⟨hKind, _⟩⟩
    · rw [← hTarget]
      exact ⟨hIs, .inl hSymbol⟩
    · cases hKind

/- What is answered spells the name that is asked for. -/
theorem answer {request : Request} {returned : Option String}
    (hNamed : request.Named)
    (hAnswer : request.answer t = .ok (returned, t')) :
    Spelling t' ∧ ∀ target, returned = some target → Spells request target := by
  cases request with
  | bindGlobal kind name =>
    rcases map_eq_ok.mp hAnswer with ⟨⟨_, _⟩, hBind, hEq⟩
    cases hEq
    rcases SymbolTable.bindGlobal_cases hBind with
      ⟨b, hFound, _, rfl, rfl⟩ | ⟨_, _, hVariant, rfl⟩
    · rcases Bindings.find_eq_some hFound with ⟨hMem, rfl⟩
      rcases h kind b hMem with ⟨hTarget, hSymbol⟩
      refine ⟨h, ?_⟩
      rintro _ ⟨⟩
      refine ⟨hTarget, hSymbol.imp_right ?_⟩
      rintro ⟨rfl, _, hKeeps⟩
      exact ⟨b.source, rfl, hKeeps⟩
    · have hTarget := hVariant.isTarget (globalWindow_isTarget hNamed)
      have hSymbol := global_symbol hNamed hVariant
      constructor
      · exact h.bind hTarget (hSymbol.imp_right fun hData => ⟨hData.1, rfl, hData.2⟩)
      · rintro _ ⟨⟩
        refine ⟨hTarget, hSymbol.imp_right ?_⟩
        rintro ⟨rfl, hKeeps⟩
        exact ⟨name, rfl, hKeeps⟩
  | bindLocal =>
    rcases map_eq_ok.mp hAnswer with ⟨⟨_, _⟩, hBind, hEq⟩
    cases hEq
    rcases SymbolTable.bindLocalAs_cases hBind with
      ⟨b, hFound, hScope, rfl, rfl⟩ | ⟨_, _, hVariant, rfl⟩
    · rcases h .data b (Bindings.find_eq_some hFound).1 with ⟨hTarget, hSymbol | ⟨_, hGlobal, _⟩⟩
      · refine ⟨h, ?_⟩
        rintro _ ⟨⟩
        exact ⟨hTarget, .inl hSymbol⟩
      · rw [hScope] at hGlobal
        cases hGlobal
    · have hTarget := hVariant.isTarget (localWindow_isTarget hNamed.2 hNamed.1)
      have hSymbol := local_symbol hNamed.2 hNamed.1 hVariant
      constructor
      · exact h.bind hTarget (.inl hSymbol)
      · rintro _ ⟨⟩
        exact ⟨hTarget, .inl hSymbol⟩
  | generate _ number =>
    rcases map_eq_ok.mp hAnswer with ⟨⟨target, _⟩, hMade, hEq⟩
    cases hEq
    rcases SymbolTable.generate_cases hMade with ⟨_, hVariant, hShort, rfl⟩
    lift number to Nat using hNamed.2
    have hGenerated := generated_of_variant hNamed.1 hVariant
    have hTarget := hGenerated.isTarget hShort
    constructor
    · exact h.reserve .label target
    · rintro _ ⟨⟩
      exact ⟨hTarget, .inl (hGenerated.symbol hTarget)⟩
  | child =>
    cases hAnswer
    refine ⟨h.child, ?_⟩
    rintro _ ⟨⟩
  | merge other =>
    cases hAnswer
    refine ⟨h.merge other, ?_⟩
    rintro _ ⟨⟩

end

theorem answers {requests : List Request} {past : List String}
    (hNamed : ∀ request ∈ requests, request.Named)
    (h : Request.answers requests = .ok (t, past)) :
    Spelling t := by
  refine foldlM_ok_induction (fun current => Spelling current.1) .empty ?_ h
  intro _ request _ hMem hCurrent hNext
  rcases map_eq_ok.mp hNext with ⟨⟨_, _⟩, hAnswer, rfl⟩
  exact (hCurrent.answer (hNamed request hMem) hAnswer).1

end Spelling

/-
  Every target that is returned is short enough, and the
  assembler takes it unless it keeps a digit in front.
-/
theorem answers_legal {requests : List Request} {t t' : SymbolTable}
    {past : List String} {request : Request} {target : String}
    (hRequests : ∀ other ∈ requests, other.Named)
    (hAnswers : Request.answers requests = .ok (t, past))
    (hRequest : request.Named)
    (hAnswer : request.answer t = .ok (some target, t')) :
    target.utf8ByteSize ≤ longestSymbol ∧
      (Legal target ↔
        ¬ ∃ name, request = .bindGlobal .data name ∧ KeepsDigit name target) := by
  have hSpelling := Spelling.answers hRequests hAnswers
  rcases (hSpelling.answer hRequest hAnswer).2 target rfl with ⟨hTarget, hCases⟩
  refine ⟨hTarget.utf8ByteSize_le, ?_⟩
  constructor
  · rintro hLegal ⟨_, _, hKeeps⟩
    exact hKeeps.not_symbol hTarget hLegal.symbol
  · intro hNone
    rcases hCases with hSymbol | hKeeps
    · exact hTarget.legal hSymbol
    · exact absurd hKeeps hNone

/-
  The second of two arrays that are cut in front of the same
  digit: a letter stands for the digit.
-/
theorem answers_legal_second :
    ∃ t t',
      Request.answers [.bindGlobal .data "a1234567_"] = .ok (t, ["1234567_"]) ∧
      Request.answer t (.bindGlobal .data "b1234567_") =
        .ok (some "f234567_", t') ∧
      Legal "f234567_" := by
  have hFirst : Spelled "a1234567_" := ⟨⟨'a', _, rfl, by decide⟩, all_eq_true.mp rfl⟩
  have hSecond : (Request.bindGlobal .data "b1234567_").Named :=
    ⟨⟨'b', _, rfl, by decide⟩, all_eq_true.mp rfl⟩
  have hNamed : ∀ other ∈ [Request.bindGlobal .data "a1234567_"],
        other.Named := by
    intro _ hOther
    rw [mem_singleton.mp hOther]
    exact hFirst
  have hAnswers : Request.answers [.bindGlobal .data "a1234567_"] = .ok (SymbolTable.empty.bind
          ⟨"a1234567_", "1234567_", .data, .global⟩, ["1234567_"]) := rfl
  have hAnswer : Request.answer (SymbolTable.empty.bind ⟨"a1234567_", "1234567_", .data, .global⟩)
          (.bindGlobal .data "b1234567_") = .ok (some "f234567_", _) := rfl
  refine ⟨_, _, hAnswers, hAnswer, ?_⟩
  refine (answers_legal hNamed hAnswers hSecond hAnswer).2.mpr ?_
  rintro ⟨_, _, _, d, hDigit, _, hHead⟩
  have hLetter : 'f' = d := by simpa using hHead
  rw [← hLetter] at hDigit
  revert hDigit
  decide

/- The first of them is refused by the assembler. -/
theorem answers_illegal_first :
    Spelled "a1234567_" ∧
    (∃ t, Request.answer .empty (.bindGlobal .data "a1234567_") = .ok (some "1234567_", t)) ∧
    isSymbol "1234567_" = false ∧
    Line.parse "1234567_:.BLOCK 4" = .error (.malformed "1234567_") := by
  refine ⟨⟨⟨'a', _, rfl, by decide⟩, all_eq_true.mp rfl⟩, ⟨_, rfl⟩, ?_, ?_⟩
  · decide
  · decide

end Compile

end Pep9
