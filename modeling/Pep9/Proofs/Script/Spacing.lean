import Pep9.Proofs.Script.Lexing

/-
  Tokens that are written one after another with a space
  between them. The lexer cuts such a line into the tokens it
  was written from: no two of them run together, brackets need
  not match, and a string literal holds its value, whatever the
  characters of it.

  Key theorems: `Spelling.completes`, `lex_spaced`.
-/

namespace Pep9

open List

namespace Script

/- The spelling of a keyword. -/
def Kind.keywordText? : Kind → Option String
  | kwDef => some "def"
  | kwReturn => some "return"
  | kwIf => some "if"
  | kwElif => some "elif"
  | kwElse => some "else"
  | kwWhile => some "while"
  | kwFor => some "for"
  | kwIn => some "in"
  | kwPass => some "pass"
  | kwBreak => some "break"
  | kwContinue => some "continue"
  | kwAnd => some "and"
  | kwOr => some "or"
  | kwNot => some "not"
  | _ => none

/- The spelling of an operator or a delimiter. -/
def Kind.sign? : Kind → Option String
  | leftParen => some "("
  | rightParen => some ")"
  | leftBracket => some "["
  | rightBracket => some "]"
  | comma => some ","
  | colon => some ":"
  | plus => some "+"
  | minus => some "-"
  | star => some "*"
  | slash => some "/"
  | percent => some "%"
  | assign => some "="
  | plusAssign => some "+="
  | minusAssign => some "-="
  | equals => some "=="
  | notEquals => some "!="
  | less => some "<"
  | greater => some ">"
  | lessEquals => some "<="
  | greaterEquals => some ">="
  | _ => none

/- A character of a literal in single quotation marks. -/
def escaped : Char → List Char
  | '\\' => ['\\', '\\']
  | '\'' => ['\\', '\'']
  | '"' => ['\\', '"']
  | '\n' => ['\\', 'n']
  | '\t' => ['\\', 't']
  | c => [c]

/- What can be written on a line: every token but the layout. -/
inductive Spelling where
  | name (word : String) (hName : IsIdentifier word)
  | keyword (kind : Kind) (word : String) (hWord : kind.keywordText? = some word)
  | number (digits : String) (hSome : digits.toList ≠ [])
      (hDigits : ∀ c ∈ digits.toList, c.isDigit = true)
  | sign (kind : Kind) (mark : String) (hSign : kind.sign? = some mark)
  | literal (value : String)

namespace Spelling

def kind : Spelling → Kind
  | name _ _ => .identifier
  | keyword kind _ _ => kind
  | number _ _ _ => .integer
  | sign kind _ _ => kind
  | literal _ => .string

def lexeme : Spelling → String
  | name word _ | keyword _ word _ => word
  | number digits _ _ => digits
  | sign _ mark _ => mark
  | literal value => value

/- A literal is written with its quotation marks and escapes. -/
def text : Spelling → String
  | literal value => String.ofList ('\'' :: (value.toList.flatMap escaped ++ ['\'']))
  | w => w.lexeme

/- The token on the first line of a script. -/
def token (w : Spelling) : Token := Lexer.onFirstLine w.kind w.lexeme

end Spelling

namespace Lexer

open Lexer.State (run)

variable {c : Char} {cs : List Char} {s t : State} {depth : Nat}
  {emitted : List Token} {kind : Kind}

theorem foldlM_step_cons
    (ds : List Char)
    (h : s.step c = .ok t) :
    (c :: ds).foldlM State.step s = ds.foldlM State.step t := by
  rw [foldlM_cons, h]
  rfl

theorem foldlM_step_append
    (ds : List Char)
    (h : cs.foldlM State.step s = .ok t) :
    (cs ++ ds).foldlM State.step s = ds.foldlM State.step t := by
  rw [foldlM_append, h]
  rfl

/- What has been read of a text is behind the lexer. -/
theorem run_append
    (ds : List Char)
    (h : cs.foldlM State.step s = .ok t) :
    run s (cs ++ ds) = run t ds := by
  induction cs generalizing s with
  | nil =>
    cases h
    rfl
  | cons _ _ ih =>
    rw [foldlM_cons, Result.bind_eq_ok] at h
    rcases h with ⟨_, hStep, hMore⟩
    rw [cons_append, run_cons _ hStep]
    exact ih hMore

/-
  A state at the end of a token: a space brings the lexer to
  the next state, and the end of the text leaves the tokens
  that the next state has.
-/
structure Completes (s t : State) : Prop where
  space : s.step ' ' = .ok t
  finish : s.flush.map State.close = .ok t.close

/- A text that is kept backwards while its characters come. -/
theorem foldlM_kept {mode : List Char → Mode} {goesOn : Char → Bool} (hStep :
      ∀ backwards c, goesOn c = true → { s with mode := mode backwards }.step c =
          .ok { s with mode := mode (c :: backwards) })
    {backwards : List Char} (hChars : ∀ c ∈ cs, goesOn c = true) :
    cs.foldlM State.step { s with mode := mode backwards } =
      .ok { s with mode := mode (cs.reverse ++ backwards) } := by
  induction cs generalizing backwards with
  | nil => rfl
  | cons c _ ih =>
    have hMore := fun d hD => hChars d (mem_cons_of_mem c hD)
    rw [foldlM_step_cons _ (hStep _ c (hChars c mem_cons_self)),
      reverse_cons, append_assoc]
    exact ih hMore

theorem kept_completes {text : String} {goesOn : Char → Bool} (mode : List Char → Mode)
    (hText : text.toList = c :: cs) (hFirst : (reading depth emitted).step c =
      .ok { reading depth emitted with mode := mode [c] })
    (hStep : ∀ backwards c, goesOn c = true →
      { reading depth emitted with mode := mode backwards }.step c =
        .ok { reading depth emitted with mode := mode (c :: backwards) })
    (hChars : ∀ d ∈ cs, goesOn d = true) (hEnds : ∀ backwards,
      String.ofList backwards.reverse = text →
        Completes { reading depth emitted with mode := mode backwards } t) :
    ∃ s, text.toList.foldlM State.step (reading depth emitted) = .ok s ∧ Completes s t := by
  refine ⟨{ reading depth emitted with mode := mode (cs.reverse ++ [c]) }, ?_, hEnds _ ?_⟩
  · rw [hText, foldlM_step_cons _ hFirst]
    exact foldlM_kept hStep hChars
  · rw [reverse_append, reverse_reverse]
    exact (congrArg String.ofList hText.symm).trans String.ofList_toList

theorem word_completes {word : String}
    (hWord : word.toList = c :: cs)
    (hStart : isWordStart c = true)
    (hChars : ∀ d ∈ cs, isWordChar d = true) :
    ∃ s, word.toList.foldlM State.step (reading depth emitted) = .ok s ∧ Completes s (reading depth
          (onFirstLine ((Kind.keyword? word).getD .identifier) word :: emitted)) :=
  kept_completes .word hWord (step_wordStart hStart) (fun _ _ hChar => if_pos hChar) hChars
    fun _ hText => hText ▸ ⟨rfl, rfl⟩

theorem number_completes {digits : String}
    (hSome : digits.toList ≠ [])
    (hDigits : ∀ d ∈ digits.toList, d.isDigit = true) :
    ∃ s, digits.toList.foldlM State.step (reading depth emitted) = .ok s ∧ Completes s
          (reading depth (onFirstLine .integer digits :: emitted)) := by
  rcases exists_cons_of_ne_nil hSome with ⟨_, _, hText⟩
  rw [hText] at hDigits
  rcases forall_mem_cons.mp hDigits with ⟨hFirst, hMore⟩
  exact kept_completes .number hText (step_digit hFirst) (fun _ _ hDigit => if_pos hDigit) hMore
    fun _ hText => hText ▸ ⟨rfl, rfl⟩

/- Operators are complete only before a character that cannot go on. -/
theorem sign_completes {mark : String}
    (h : kind.sign? = some mark) :
    ∃ s, mark.toList.foldlM State.step (reading depth emitted) = .ok s ∧
        Completes s (reading (State.depthAfter depth kind) (onFirstLine kind mark :: emitted)) := by
  cases kind <;> cases h <;> exact ⟨_, rfl, rfl, rfl⟩

------------------------------------------------------------
-- Literals
------------------------------------------------------------

/- A literal of the first line that is under way. -/
def quoting (s : State) (backwards : List Char) : State :=
  { s with mode := .string '\'' 1 backwards }

theorem foldlM_escaped
    (c : Char)
    (backwards : List Char) :
    (escaped c).foldlM State.step (quoting s backwards) = .ok (quoting s (c :: backwards)) := by
  unfold escaped
  split
  · rfl
  · rfl
  · rfl
  · rfl
  · rfl
  · next hBackslash hQuote _ hLine _ =>
    -- The zero character is one like the others here.
    have hStep : (quoting s backwards).step c = .ok (quoting s (c :: backwards)) :=
      (if_neg hQuote).trans ((if_neg hLine).trans (if_neg hBackslash))
    exact foldlM_step_cons [] hStep

theorem foldlM_value (value backwards : List Char) :
    (value.flatMap escaped).foldlM State.step (quoting s backwards) =
      .ok (quoting s (value.reverse ++ backwards)) := by
  induction value generalizing backwards with
  | nil => rfl
  | cons c _ ih =>
    rw [flatMap_cons, foldlM_step_append _ (foldlM_escaped c backwards),
      reverse_cons, append_assoc]
    exact ih (c :: backwards)

theorem step_quote (backwards : List Char) :
    (quoting (reading depth emitted) backwards).step '\'' =
      .ok (reading depth (onFirstLine .string (String.ofList backwards.reverse) :: emitted)) := rfl

theorem literal_completes (value : String) :
    ∃ s, (Spelling.literal value).text.toList.foldlM State.step (reading depth emitted) = .ok s ∧
        Completes s (reading depth (onFirstLine .string value :: emitted)) := by
  have hOpens : (reading depth emitted).step '\'' = .ok (quoting (reading depth emitted) []) := rfl
  refine ⟨reading depth (onFirstLine .string value :: emitted), ?_, rfl, rfl⟩
  rw [Spelling.text, String.toList_ofList, foldlM_step_cons _ hOpens,
    foldlM_step_append _ (foldlM_value value.toList []),
    foldlM_step_cons _ (step_quote _), append_nil, reverse_reverse, String.ofList_toList]
  rfl

end Lexer

namespace Spelling

open Lexer

/- Every spelling is read to its end, and stays in its line. -/
theorem completes
    (w : Spelling)
    (depth : Nat)
    (emitted : List Token) :
    ∃ s, w.text.toList.foldlM Lexer.State.step (reading depth emitted) = .ok s ∧
        Completes s (reading (Lexer.State.depthAfter depth w.kind) (w.token :: emitted)) := by
  cases w with
  | name _ hName =>
    rcases hName.first with ⟨c, cs, hText, hStart⟩
    have hChars : ∀ d ∈ cs, isWordChar d = true := fun d hD =>
      hName.chars d (hText ▸ mem_cons_of_mem c hD)
    rcases word_completes hText hStart hChars with ⟨s, hFeeds, hEnds⟩
    rw [hName.notKeyword] at hEnds
    exact ⟨s, hFeeds, hEnds⟩
  | keyword kind _ hWord =>
    cases kind <;> cases hWord <;>
      exact word_completes rfl rfl (all_eq_true.mp rfl)
  | number _ hSome hDigits => exact number_completes hSome hDigits
  | sign _ _ hSign => exact sign_completes hSign
  | literal value => exact literal_completes value

/- A spelling does not start with what a line may start with. -/
theorem text_first (w : Spelling) :
    ∃ c rest, w.text.toList = c :: rest ∧ isGap c = false ∧
        startsBlankLine c = false := by
  cases w with
  | name _ hName =>
    rcases hName.first with ⟨c, rest, hText, hStart⟩
    have hChar := isWordChar_of_isWordStart hStart
    exact ⟨c, rest, hText, (inLine_of_isWordChar hChar).1, not_startsBlankLine_of_isWordChar hChar⟩
  | keyword kind _ hWord => cases kind <;> cases hWord <;> exact ⟨_, _, rfl, rfl, rfl⟩
  | number _ hSome hDigits =>
    rcases exists_cons_of_ne_nil hSome with ⟨c, rest, hText⟩
    have hDigit : c.isDigit = true := hDigits c (hText ▸ mem_cons_self)
    have hChar : isWordChar c = true := by rw [isWordChar, hDigit, Bool.or_true]
    exact ⟨c, rest, hText, (inLine_of_isWordChar hChar).1, not_startsBlankLine_of_isWordChar hChar⟩
  | sign kind _ hSign => cases kind <;> cases hSign <;> exact ⟨_, _, rfl, rfl, rfl⟩
  | literal => exact ⟨'\'', _, String.toList_ofList, rfl, rfl⟩

end Spelling

/- The tokens of a line, and those that end it. -/
theorem close_reading {t : Token}
    (depth : Nat)
    (emitted : List Token)
    (h : t.kind ≠ .newline) :
    (Lexer.reading depth (t :: emitted)).close = (t :: emitted).reverse ++
        [Lexer.onFirstLine .newline "", Lexer.onFirstLine .eof ""] := by
  have hLast : Lexer.lastNewline (Lexer.reading depth (t :: emitted)) =
        [Lexer.onFirstLine .newline ""] := if_neg h
  rw [Lexer.close_eq, Lexer.closedTokens, hLast]
  simp [Lexer.reading, Lexer.onFirstLine]

theorem Spelling.token_ne_newline (w : Spelling) : w.token.kind ≠ .newline := by
  cases w with
  | name => nofun
  | keyword _ _ hWord =>
    rintro rfl
    cases hWord
  | number => nofun
  | sign _ _ hSign =>
    rintro rfl
    cases hSign
  | literal => nofun

/- Spellings with a space between them, somewhere on a line. -/
theorem run_spaced
    (w : Spelling)
    (more : List Spelling)
    (depth : Nat)
    (emitted : List Token) :
    (Lexer.reading depth emitted).run ([' '].intercalate ((w :: more).map fun w => w.text.toList)) =
      .ok (emitted.reverse ++ (w :: more).map Spelling.token ++
        [Lexer.onFirstLine .newline "", Lexer.onFirstLine .eof ""]) := by
  induction more generalizing w depth emitted with
  | nil =>
    rcases w.completes depth emitted with ⟨_, hRead, hEnds⟩
    have hRun := Lexer.run_append [] hRead
    rw [append_nil] at hRun
    rw [map_singleton, map_singleton, intercalate_singleton, hRun]
    refine hEnds.finish.trans ?_
    rw [close_reading _ _ w.token_ne_newline, reverse_cons]
  | cons v _ ih =>
    rcases w.completes depth emitted with ⟨_, hRead, hEnds⟩
    rw [map_cons, map_cons, intercalate_cons_cons,
      append_assoc, Lexer.run_append _ hRead]
    refine (Lexer.run_cons _ hEnds.space).trans ((ih v _ _).trans ?_)
    rw [reverse_cons, append_assoc emitted.reverse]
    rfl

/- Spaced tokens are cut into themselves. -/
theorem lex_spaced {line : List Spelling}
    (hSome : line ≠ []) :
    lex (" ".intercalate (line.map Spelling.text)) =
      .ok (line.map Spelling.token ++
        [Lexer.onFirstLine .newline "", Lexer.onFirstLine .eof ""]) := by
  rcases exists_cons_of_ne_nil hSome with ⟨w, more, rfl⟩
  have hRun := run_spaced w more 0 []
  rcases w.text_first with ⟨c, rest, hText, hGap, hBlank⟩
  have hFirst : ∃ behind, [' '].intercalate ((w :: more).map fun w => w.text.toList) =
          c :: behind := by
    rw [map_cons, hText]
    cases more with
    | nil => exact ⟨rest, intercalate_singleton⟩
    | cons => exact ⟨_, intercalate_cons_cons⟩
  rcases hFirst with ⟨behind, hLine⟩
  rw [lex, String.toList_intercalate, map_map]
  change Lexer.State.start.run ([' '].intercalate ((w :: more).map fun w => w.text.toList)) = _
  rw [hLine] at hRun ⊢
  rw [Lexer.run_firstLine behind hGap hBlank, hRun]
  rfl

/-
  A bracket that matches nothing, two signs that are one
  without the space, a name that starts like a keyword, and a
  value with both quotation marks, a line break and the zero
  character.
-/
def mixedLine : List Spelling :=
  [.sign .rightParen ")" rfl, .sign .less "<" rfl, .sign .assign "=" rfl, .keyword .kwDef "def" rfl,
    .name "define" ⟨⟨_, _, rfl, rfl⟩, all_eq_true.mp rfl, rfl⟩,
    .number "007" (by decide) (all_eq_true.mp rfl), .literal "\'\"\n\x00",
    .sign .leftBracket "[" rfl]

theorem lex_spaced_mixedLine :
    mixedLine ≠ [] ∧ lex ") < = def define 007 '\\'\\\"\\n\x00' [" = .ok
          [⟨.rightParen, ")", 1⟩, ⟨.less, "<", 1⟩, ⟨.assign, "=", 1⟩,
            ⟨.kwDef, "def", 1⟩, ⟨.identifier, "define", 1⟩,
            ⟨.integer, "007", 1⟩, ⟨.string, "\'\"\n\x00", 1⟩,
            ⟨.leftBracket, "[", 1⟩, ⟨.newline, "", 1⟩, ⟨.eof, "", 1⟩] := by
  have hSome : mixedLine ≠ [] := by nofun
  have hText : " ".intercalate (mixedLine.map Spelling.text) =
        ") < = def define 007 '\\'\\\"\\n\x00' [" := by decide
  refine ⟨hSome, ?_⟩
  rw [← hText]
  exact lex_spaced hSome

end Script

end Pep9
