import Pep9.Proofs.Script.Grammar
import Pep9.Proofs.Script.Identifier

/-
  Pieces of a line and their tokens. A piece is cut into the
  same tokens wherever a delimiter follows it, so that pieces
  can be put together.

  Key theorems: `Lexer.Lexes.word`, `Lexer.Lexes.number`,
  `Lexer.Lexes.binary`, `Lexer.Lexes.paren`,
  `Lexer.run_start`.
-/

namespace Pep9

open List

variable {depth : Nat} {emitted : List Token}

namespace Script

variable {c : Char} {cs ds : List Char} {ts us : List Token}

namespace Lexer

open Lexer.State (run)

/- Between two tokens of the first line. -/
def reading (depth : Nat) (emitted : List Token) : State where
  mode := .between
  line := 1
  indents := []
  depth := depth
  emitted := emitted

/- A token of the first line. -/
def onFirstLine (kind : Kind) (lexeme : String) : Token := ⟨kind, lexeme, 1⟩

/- Characters that end a word, a number or an operator. -/
structure Delimits (c : Char) : Prop where
  notWord : isWordChar c = false
  notEquals : c ≠ '='

/- A text is cut into tokens whatever delimiter follows. -/
def Lexes (cs : List Char) (ts : List Token) : Prop :=
  ∀ depth emitted next rest, Delimits next → run (reading depth emitted) (cs ++ next :: rest) =
      run (reading depth (ts.reverse ++ emitted)) (next :: rest)

theorem delimits_space : Delimits ' ' := ⟨by decide, by decide⟩

theorem delimits_paren : Delimits ')' := ⟨by decide, by decide⟩

theorem delimits_left : Delimits '[' := ⟨by decide, by decide⟩

theorem delimits_right : Delimits ']' := ⟨by decide, by decide⟩

theorem delimits_newline : Delimits '\n' := ⟨by decide, by decide⟩

theorem run_cons {s next : State}
    (rest : List Char)
    (h : s.step c = .ok next) :
    run s (c :: rest) = run next rest := by
  rw [run, h]

/-
  A text that is kept backwards until a character comes that
  is not part of it. Words and numbers are such texts.
-/
theorem run_kept {s : State} {mode : List Char → Mode} {goesOn : Char → Bool}
    {finish : List Char → State} (hStep : ∀ backwards c, { s with mode := mode backwards }.step c =
          if goesOn c then
            .ok { s with mode := mode (c :: backwards) }
          else
            (finish backwards).stepBetween c) {backwards : List Char}
    {next : Char} {rest : List Char} (hChars : ∀ c ∈ cs, goesOn c = true)
    (hNext : goesOn next = false) :
    run { s with mode := mode backwards } (cs ++ next :: rest) =
      run { finish (cs.reverse ++ backwards) with mode := .between } (next :: rest) := by
  induction cs generalizing backwards with
  | nil =>
    rw [nil_append, run, hStep, hNext]
    rfl
  | cons c _ ih =>
    have hC := hChars c mem_cons_self
    have hMore := fun d hD => hChars d (mem_cons_of_mem c hD)
    rw [cons_append, run_cons _ ((hStep _ c).trans (if_pos hC)),
      reverse_cons, append_assoc]
    exact ih hMore

/- Characters of words do not end a line or a token. -/
theorem inLine_of_isWordChar (h : isWordChar c = true) :
    isGap c = false ∧ c ≠ '#' ∧ c ≠ '\n' := by
  refine ⟨?_, ?_, ?_⟩
  · rw [Bool.eq_false_iff]
    intro hGap
    simp only [isGap, Bool.or_eq_true, beq_iff_eq] at hGap
    rcases hGap with ((rfl | rfl) | rfl) | rfl <;>
      exact absurd h (by decide)
  · rintro rfl
    exact absurd h (by decide)
  · rintro rfl
    exact absurd h (by decide)

theorem step_wordStart (h : isWordStart c = true) :
    (reading depth emitted).step c =
      .ok { reading depth emitted with mode := .word [c] } := by
  rcases inLine_of_isWordChar (isWordChar_of_isWordStart h) with ⟨hGap, hHash, hLine⟩
  change (reading depth emitted).stepBetween c = _
  unfold State.stepBetween
  simp only [hGap, Bool.false_eq_true, if_false, if_neg hHash, if_neg hLine, h, if_true]

theorem not_isWordStart_of_isDigit (h : c.isDigit = true) :
    isWordStart c = false := by
  refine Bool.eq_false_iff.mpr fun hStart => ?_
  cases (not_isDigit_of_isWordStart hStart).symm.trans h

theorem step_digit (h : c.isDigit = true) :
    (reading depth emitted).step c =
      .ok { reading depth emitted with mode := .number [c] } := by
  have hWord : isWordChar c = true := by rw [isWordChar, h, Bool.or_true]
  rcases inLine_of_isWordChar hWord with ⟨hGap, hHash, hLine⟩
  change (reading depth emitted).stepBetween c = _
  unfold State.stepBetween
  simp only [hGap, Bool.false_eq_true, if_false, if_neg hHash,
    if_neg hLine, not_isWordStart_of_isDigit h, h, if_true]

theorem Lexes.word {word : String}
    (hWord : word.toList = c :: cs)
    (hStart : isWordStart c = true)
    (hChars : cs.all isWordChar = true) :
    Lexes word.toList
      [onFirstLine ((Kind.keyword? word).getD .identifier) word] := by
  intro depth emitted next rest hNext
  have hText : String.ofList (c :: cs) = word := by
    rw [← hWord, String.ofList_toList]
  have hEnd : (reading depth emitted).endWord (cs.reverse ++ [c]) =
        reading depth (onFirstLine ((Kind.keyword? word).getD .identifier) word :: emitted) := by
    unfold State.endWord
    rw [reverse_append, reverse_reverse, ← hText]
    rfl
  rw [hWord, cons_append, run_cons _ (step_wordStart hStart)]
  refine (run_kept (fun _ _ => rfl) (all_eq_true.mp hChars) hNext.notWord).trans ?_
  exact congrArg (fun s => run { s with mode := .between } (next :: rest)) hEnd

theorem Lexes.number (hDigits : ∀ d ∈ c :: cs, d.isDigit = true) :
    Lexes (c :: cs) [onFirstLine .integer (String.ofList (c :: cs))] := by
  intro depth emitted next rest hNext
  rcases forall_mem_cons.mp hDigits with ⟨hFirst, hMore⟩
  have hNotDigit : next.isDigit = false := by
    have hNotWord := hNext.notWord
    rw [isWordChar, Bool.or_eq_false_iff] at hNotWord
    exact hNotWord.2
  rw [cons_append, run_cons _ (step_digit hFirst)]
  have hEnd : (reading depth emitted).endNumber (cs.reverse ++ [c]) =
        reading depth (onFirstLine .integer (String.ofList (c :: cs)) :: emitted) := by
    unfold State.endNumber
    rw [reverse_append, reverse_reverse]
    rfl
  refine (run_kept (fun _ _ => rfl) hMore hNotDigit).trans ?_
  exact congrArg (fun s => run { s with mode := .between } (next :: rest)) hEnd

/- An operator that no equals sign follows. -/
theorem run_short {kind : Kind} (hFirst : ∀ depth emitted, (reading depth emitted).step c =
          .ok { reading depth emitted with mode := .operator c })
    (hKind : short? c = some kind) (depth : Nat) (emitted : List Token)
    {next : Char} (rest : List Char) (hNext : next ≠ '=') :
    run (reading depth emitted) (c :: next :: rest) =
      run (reading depth (onFirstLine kind (String.singleton c) :: emitted)) (next :: rest) := by
  have hStep : { reading depth emitted with mode := .operator c }.step next =
        (reading depth (onFirstLine kind (String.singleton c) :: emitted)).step
            next := by
    unfold State.step
    dsimp only
    split
    · exact absurd rfl hNext
    · unfold State.endOperator
      rw [hKind]
      rfl
  rw [run_cons _ (hFirst depth emitted), run, hStep, run]

theorem Lexes.short {kind : Kind} (hFirst : ∀ depth emitted, (reading depth emitted).step c =
          .ok { reading depth emitted with mode := .operator c }) (hKind : short? c = some kind) :
    Lexes [c] [onFirstLine kind (String.singleton c)] := by
  intro depth emitted _ rest hNext
  exact run_short hFirst hKind depth emitted rest hNext.notEquals

theorem Lexes.arith (op : Arith) :
    Lexes op.symbol.toList [onFirstLine op.kind op.symbol] := by
  cases op with
  | add | sub => exact Lexes.short (fun _ _ => rfl) rfl
  | mul | div | mod => exact fun _ _ _ _ _ => rfl

theorem Lexes.comparison (op : Comparison) :
    Lexes op.symbol.toList [onFirstLine op.kind op.symbol] := by
  cases op with
  | less => exact Lexes.short (fun _ _ => rfl) rfl
  | lessEquals => exact fun _ _ _ _ _ => rfl
  | greater => exact Lexes.short (fun _ _ => rfl) rfl
  | greaterEquals | equals | notEquals => exact fun _ _ _ _ _ => rfl

theorem Lexes.logic (op : Logic) :
    Lexes op.symbol.toList [onFirstLine op.kind op.symbol] := by
  cases op with
  | and | or => exact Lexes.word rfl rfl rfl

/- Texts with a space between them. -/
theorem Lexes.space
    (h : Lexes cs ts)
    (hMore : Lexes ds us) :
    Lexes (cs ++ ' ' :: ds) (ts ++ us) := by
  intro depth emitted next rest hNext
  rw [append_assoc, cons_append,
    h depth emitted ' ' _ delimits_space, reverse_append, append_assoc]
  exact (run_cons _ rfl).trans (hMore depth _ next rest hNext)

/- Two texts with an operator between them. -/
theorem Lexes.binary {os : List Char} {sign : Token}
    (hLeft : Lexes cs ts)
    (hSign : Lexes os [sign])
    (hRight : Lexes ds us) :
    Lexes (cs ++ ' ' :: (os ++ ' ' :: ds)) (ts ++ sign :: us) := hLeft.space (hSign.space hRight)

theorem Lexes.paren (h : Lexes cs ts) :
    Lexes ('(' :: (cs ++ [')'])) (onFirstLine .leftParen "(" ::
        (ts ++ [onFirstLine .rightParen ")"])) := by
  intro depth emitted next rest _
  have hTokens : (onFirstLine .leftParen "(" ::
        (ts ++ [onFirstLine .rightParen ")"])).reverse ++ emitted = onFirstLine .rightParen ")" ::
          (ts.reverse ++ onFirstLine .leftParen "(" :: emitted) := by
    simp
  rw [cons_append, append_assoc, hTokens]
  calc
    _ = run (reading (depth + 1) (ts.reverse ++ onFirstLine .leftParen "(" :: emitted))
        (')' :: next :: rest) := h _ _ _ _ delimits_paren

/- A text with a subscript behind it. -/
theorem Lexes.subscript
    (h : Lexes cs ts)
    (hMore : Lexes ds us) :
    Lexes (cs ++ '[' :: (ds ++ [']'])) (ts ++ onFirstLine .leftBracket "[" ::
        (us ++ [onFirstLine .rightBracket "]"])) := by
  intro depth emitted next rest _
  have hTokens : (ts ++ onFirstLine .leftBracket "[" ::
        (us ++ [onFirstLine .rightBracket "]"])).reverse ++ emitted =
        onFirstLine .rightBracket "]" :: (us.reverse ++
          onFirstLine .leftBracket "[" :: (ts.reverse ++ emitted)) := by
    simp
  rw [append_assoc, cons_append, append_assoc, hTokens]
  calc
    _ = run (reading depth (ts.reverse ++ emitted)) ('[' :: (ds ++ ']' :: next :: rest)) :=
      h _ _ _ _ delimits_left
    _ = run (reading (depth + 1) (us.reverse ++
          onFirstLine .leftBracket "[" :: (ts.reverse ++ emitted)))
        (']' :: next :: rest) := hMore _ _ _ _ delimits_right

/- A minus sign in front of a number. -/
theorem Lexes.negative (hDigits : ∀ d ∈ c :: cs, d.isDigit = true) :
    Lexes ('-' :: c :: cs) [onFirstLine .minus "-",
        onFirstLine .integer (String.ofList (c :: cs))] := by
  intro depth emitted next rest hNext
  have hDigit : c ≠ '=' := by
    rintro rfl
    exact absurd (hDigits _ mem_cons_self) (by decide)
  have hSign := run_short (fun _ _ => rfl) (rfl : short? '-' = some .minus)
    depth emitted (cs ++ next :: rest) hDigit
  exact hSign.trans (Lexes.number hDigits depth _ next rest hNext)

/- A first line that starts without a blank. -/
theorem run_firstLine
    (rest : List Char)
    (hGap : isGap c = false)
    (hBlank : startsBlankLine c = false) :
    run State.start (c :: rest) = run (reading 0 []) (c :: rest) := by
  have hLine : c ≠ '\n' := by
    rintro rfl
    exact absurd hBlank (by decide)
  simp only [isGap, Bool.or_eq_false_iff, beq_eq_false_iff_ne] at hGap
  rcases hGap with ⟨⟨⟨hSpace, hTab⟩, _⟩, hFeed⟩
  have hStep : State.start.step c = (reading 0 []).step c := by
    simp only [State.step, State.start, hSpace, hTab, hFeed, hLine,
      hBlank, Bool.false_eq_true, if_false]
    rfl
  rw [run, run, hStep]

/- Words do not make a line blank. -/
theorem not_startsBlankLine_of_isWordChar (h : isWordChar c = true) :
    startsBlankLine c = false := by
  rw [Bool.eq_false_iff]
  intro hBlank
  simp only [startsBlankLine, Bool.or_eq_true, beq_iff_eq] at hBlank
  rcases hBlank with ((rfl | rfl) | rfl) | rfl <;>
    exact absurd h (by decide)

/- The characters that a printed expression starts with. -/
def Begins (c : Char) : Prop := c = '(' ∨ c = '-' ∨ isWordChar c = true

theorem run_start
    (rest : List Char)
    (h : Begins c) :
    run State.start (c :: rest) = run (reading 0 []) (c :: rest) := by
  rcases h with rfl | rfl | hWord
  · rfl
  · rfl
  · exact run_firstLine rest (inLine_of_isWordChar hWord).1
      (not_startsBlankLine_of_isWordChar hWord)

end Lexer

end Script

end Pep9
