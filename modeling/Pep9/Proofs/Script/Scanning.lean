import Mathlib.Data.List.Induction
import Pep9.Proofs.Result
import Pep9.Script.Lexer

/-
  What a character does to the lexer, and what a text does
  character by character.

  Key theorems: `Lexer.flush_flushes`, `Lexer.step_moves`,
  `Lexer.run_eq_ok`, `Lexer.close_eq`.
-/

namespace Pep9

open List Result

variable {backwards : List Char} {chars : List Char} {column : Nat} {first : Char}

namespace Script

variable {c : Char} {kind : Kind} {s s' : State}

/- Tokens that stand in a text as their lexemes do. -/
def Kind.isSpelled : Kind → Bool
  | eof | newline | indent | dedent | string => false
  | _ => true

namespace Lexer

theorem lone_isSpelled (h : lone? c = some kind) :
    kind.isSpelled = true ∧ kind ≠ .identifier := by
  unfold lone? at h
  split at h <;> cases h <;> decide

theorem short_isSpelled (h : short? c = some kind) :
    kind.isSpelled = true ∧ kind ≠ .identifier := by
  unfold short? at h
  split at h <;> cases h <;> decide

theorem long_isSpelled (h : long? c = some kind) :
    kind.isSpelled = true ∧ kind ≠ .identifier := by
  unfold long? at h
  split at h <;> cases h <;> decide

theorem keyword_isSpelled (word : String) :
    ((Kind.keyword? word).getD .identifier).isSpelled = true ∧
      ((Kind.keyword? word).getD .identifier = .identifier → Kind.keyword? word = none) := by
  unfold Kind.keyword?
  split <;> decide

/- The text of a token that ends with whatever comes next. -/
def Mode.spelling? : Mode → Option (List Char)
  | word backwards | number backwards => some backwards.reverse
  | operator first => some [first]
  | _ => none

/- Modes in which no token is under way. -/
def Mode.isResting : Mode → Bool
  | lineStart _ | blankLine | between | comment => true
  | _ => false

/- The end of the token that is under way, if there is one. -/
inductive Flushes : State → State → Prop where
  | rest {s : State} (hMode : s.mode.isResting = true) : Flushes s s
  | token {s : State} {kind : Kind} {text : List Char} (hMode : s.mode.spelling? = some text)
      (hKind : kind.isSpelled = true) (hName : kind = .identifier →
        s.mode = .word text.reverse ∧ Kind.keyword? (String.ofList text) = none) :
      Flushes s (s.emit kind (String.ofList text))

theorem endWord_flushes (hMode : s.mode = .word backwards) :
    Flushes s (s.endWord backwards) := by
  rcases keyword_isSpelled (String.ofList backwards.reverse) with ⟨hKind, hName⟩
  refine .token (by rw [hMode]; rfl) hKind fun hIs => ⟨?_, hName hIs⟩
  rw [reverse_reverse, hMode]

theorem endNumber_flushes (hMode : s.mode = .number backwards) :
    Flushes s (s.endNumber backwards) := .token (by rw [hMode]; rfl) rfl nofun

theorem endOperator_flushes
    (hMode : s.mode = .operator first)
    (h : s.endOperator first = .ok s') :
    Flushes s s' := by
  unfold State.endOperator at h
  split at h
  · next kind hKind =>
    cases h
    rcases short_isSpelled hKind with ⟨hSpelled, hName⟩
    exact .token (by rw [hMode]; rfl) hSpelled fun hIs => absurd hIs hName
  · cases h

theorem flush_flushes (h : s.flush = .ok s') : Flushes s s' := by
  unfold State.flush at h
  split at h
  · next hMode =>
    cases h
    exact .rest (by rw [hMode]; rfl)
  · next hMode =>
    cases h
    exact .rest (by rw [hMode]; rfl)
  · next hMode =>
    cases h
    exact .rest (by rw [hMode]; rfl)
  · next hMode =>
    cases h
    exact .rest (by rw [hMode]; rfl)
  · next hMode =>
    cases h
    exact endWord_flushes hMode
  · next hMode =>
    cases h
    exact endNumber_flushes hMode
  · cases h
  · cases h
  · cases h
  · next hMode => exact endOperator_flushes hMode h

def isQuote (c : Char) : Bool := c == '"' || c == '\''

/- What a character between two tokens does. -/
inductive Enters : State → Char → State → Prop where
  | gap {s : State} {c : Char} (hChar : isGap c = true) : Enters s c { s with mode := .between }
  | comment (s : State) : Enters s '#' { s with mode := .comment }
  | newline {s : State} (hDepth : s.depth = 0) : Enters s '\n'
        { s.emit .newline "" with
          mode := .lineStart 0
          line := s.line + 1 }
  | fold {s : State} (hDepth : s.depth ≠ 0) :
      Enters s '\n' { s with mode := .between, line := s.line + 1 }
  | word {s : State} {c : Char} (hChar : isWordStart c = true) :
      Enters s c { s with mode := .word [c] }
  | number {s : State} {c : Char} (hChar : c.isDigit = true) :
      Enters s c { s with mode := .number [c] }
  | string {s : State} {c : Char} (hChar : isQuote c = true) :
      Enters s c { s with mode := .string c s.line [] }
  | continuation (s : State) : Enters s '\\' { s with mode := .continuation }
  | operator {s : State} {c : Char} {kind : Kind} (hKind : long? c = some kind) :
      Enters s c { s with mode := .operator c }
  | lone {s : State} {c : Char} {kind : Kind} (hKind : lone? c = some kind) : Enters s c
        { s.emit kind (String.ofList [c]) with
          mode := .between
          depth := State.depthAfter s.depth kind }

/- Between tokens a character starts one, or none. -/
theorem stepBetween_enters (h : s.stepBetween c = .ok s') : Enters s c s' := by
  unfold State.stepBetween at h
  split at h
  · next hChar =>
    cases h
    exact .gap hChar
  split at h
  · next hChar =>
    cases h
    subst hChar
    exact .comment s
  split at h
  · next hChar =>
    subst hChar
    split at h
    · next hDepth =>
      cases h
      exact .newline hDepth
    · next hDepth =>
      cases h
      exact .fold hDepth
  split at h
  · next hChar =>
    cases h
    exact .word hChar
  split at h
  · next hChar =>
    cases h
    exact .number hChar
  split at h
  · next hChar =>
    cases h
    exact .string (by simpa [isQuote] using hChar)
  split at h
  · next hChar =>
    cases h
    subst hChar
    exact .continuation s
  split at h
  · next hChar =>
    cases h
    rcases Option.isSome_iff_exists.mp hChar with ⟨_, hKind⟩
    exact .operator hKind
  split at h
  · next kind hKind =>
    cases h
    exact .lone hKind
  · cases h

/- Blocks are opened and closed by tokens of layout alone. -/
theorem indentTo_induction {P : List Token → Prop}
    (hStart : P s.emitted)
    (hLayout : ∀ kind tokens, kind = .indent ∨ kind = .dedent → P tokens →
      P (⟨kind, "", s.line⟩ :: tokens))
    (h : s.indentTo column = .ok s') :
    P s'.emitted := by
  unfold State.indentTo at h
  split at h
  · cases h
    exact hLayout .indent _ (.inl rfl) hStart
  · next hColumn =>
    clear hColumn
    generalize s.indents = indents at h
    induction indents generalizing s with
    | nil =>
      unfold State.dedent at h
      split at h
      · cases h
        exact hStart
      · cases h
    | cons _ _ ih =>
      unfold State.dedent at h
      split at h
      · exact ih (s := s.emit .dedent "") (hLayout .dedent _ (.inr rfl) hStart) hLayout h
      · split at h
        · cases h
          exact hStart
        · cases h

------------------------------------------------------------
-- Characters
------------------------------------------------------------

/- Blanks at the start of a line, which make up its column. -/
def isMargin (c : Char) : Bool := c == ' ' || c == '\t' || c == '\x0c'

/-
  Modes in which a character ends what is under way and is
  then read as one between two tokens.
-/
def Mode.EndsAt (c : Char) : Mode → Prop
  | between => True
  | comment => c = '\n'
  | word _ => isWordChar c = false
  | number _ => c.isDigit = false
  | operator first => long? first = none ∨ c ≠ '='
  | _ => False

/- What a character does. -/
inductive Moves : State → Char → State → Prop where
  | margin {s : State} {c : Char} {column : Nat} (hMode : s.mode = .lineStart column)
      (hChar : isMargin c = true) (column' : Nat) : Moves s c { s with mode := .lineStart column' }
  | emptyLine {s : State} {column : Nat} (hMode : s.mode = .lineStart column) :
      Moves s '\n' { s with mode := .lineStart 0, line := s.line + 1 }
  | blankStarts {s : State} {c : Char} {column : Nat} (hMode : s.mode = .lineStart column)
      (hChar : c = '#' ∨ c = '\r' ∨ c = '\x00') : Moves s c { s with mode := .blankLine }
  | lineStarts {s t s' : State} {c : Char} {column : Nat} (hMode : s.mode = .lineStart column)
      (hMargin : isMargin c = false) (hBlank : startsBlankLine c = false)
      (hIndent : s.indentTo column = .ok t) (hEnters : Enters t c s') : Moves s c s'
  | blankGoes {s : State} {c : Char} (hMode : s.mode = .blankLine) (hChar : c ≠ '\n') : Moves s c s
  | blankEnds {s : State} (hMode : s.mode = .blankLine) :
      Moves s '\n' { s with mode := .lineStart 0, line := s.line + 1 }
  | commentGoes {s : State} {c : Char} (hMode : s.mode = .comment) (hChar : c ≠ '\n') : Moves s c s
  | wordGoes {s : State} {c : Char} {backwards : List Char} (hMode : s.mode = .word backwards)
      (hChar : isWordChar c = true) : Moves s c { s with mode := .word (c :: backwards) }
  | numberGoes {s : State} {c : Char} {backwards : List Char} (hMode : s.mode = .number backwards)
      (hChar : c.isDigit = true) : Moves s c { s with mode := .number (c :: backwards) }
  | stringEnds {s : State} {quote : Char} {line : Nat} {backwards : List Char}
      (hMode : s.mode = .string quote line backwards) : Moves s quote
        { s.emitAt .string (String.ofList backwards.reverse) line with
          mode := .between }
  | stringGoes {s : State} {c quote : Char} {line : Nat} {backwards : List Char}
      (hMode : s.mode = .string quote line backwards) (hQuote : c ≠ quote) (hLine : c ≠ '\n')
      (hEscape : c ≠ '\\') : Moves s c { s with mode := .string quote line (c :: backwards) }
  | escapeStarts {s : State} {quote : Char} {line : Nat} {backwards : List Char}
      (hMode : s.mode = .string quote line backwards) (hQuote : '\\' ≠ quote) :
      Moves s '\\' { s with mode := .escape quote line backwards }
  | escapeEnds {s : State} {c quote value : Char} {line : Nat} {backwards : List Char}
      (hMode : s.mode = .escape quote line backwards) (hValue : escape? c = some value) :
      Moves s c { s with mode := .string quote line (value :: backwards) }
  | joined {s : State} (hMode : s.mode = .continuation) :
      Moves s '\n' { s with mode := .between, line := s.line + 1 }
  | long {s : State} {first : Char} {kind : Kind} (hMode : s.mode = .operator first)
      (hKind : long? first = some kind) : Moves s '='
        { s.emit kind (String.ofList [first, '=']) with mode := .between }
  | ends {s t s' : State} {c : Char} (hMode : s.mode.EndsAt c) (hFlushes : Flushes s t)
      (hEnters : Enters t c s') : Moves s c s'

/- At the start of a line the margin is measured. -/
theorem step_lineStart_moves
    (hMode : s.mode = .lineStart column)
    (h : s.step c = .ok s') :
    Moves s c s' := by
  unfold State.step at h
  rw [hMode] at h
  dsimp only at h
  split at h
  · next hChar =>
    cases h
    subst hChar
    exact .margin hMode rfl _
  split at h
  · next hChar =>
    cases h
    subst hChar
    exact .margin hMode rfl _
  split at h
  · next hChar =>
    cases h
    subst hChar
    exact .margin hMode rfl _
  split at h
  · next hChar =>
    cases h
    subst hChar
    exact .emptyLine hMode
  · next hLine =>
    split at h
    · next hChar =>
      cases h
      simp only [startsBlankLine, Bool.or_eq_true, beq_iff_eq] at hChar
      refine .blankStarts hMode ?_
      rcases hChar with ((hChar | hChar) | hChar) | hChar
      · exact absurd hChar hLine
      · exact .inr (.inl hChar)
      · exact .inl hChar
      · exact .inr (.inr hChar)
    · next hBlank =>
      rcases seq h with ⟨_, hIndent, hStep⟩
      refine .lineStarts hMode ?_ (Bool.eq_false_iff.mpr hBlank) hIndent (stepBetween_enters hStep)
      simp [isMargin, *]

theorem step_string_moves {quote : Char} {line : Nat}
    (hMode : s.mode = .string quote line backwards)
    (h : s.step c = .ok s') :
    Moves s c s' := by
  unfold State.step at h
  rw [hMode] at h
  dsimp only at h
  split at h
  · next hQuote =>
    cases h
    subst hQuote
    exact .stringEnds hMode
  · next hQuote =>
    split at h
    · cases h
    · next hLine =>
      split at h
      · next hEscape =>
        cases h
        subst hEscape
        exact .escapeStarts hMode hQuote
      · next hEscape =>
        cases h
        exact .stringGoes hMode hQuote hLine hEscape

theorem step_operator_moves
    (hMode : s.mode = .operator first)
    (h : s.step c = .ok s') :
    Moves s c s' := by
  unfold State.step at h
  rw [hMode] at h
  dsimp only at h
  split at h
  · next kind hKind =>
    cases h
    exact .long hMode hKind
  · next hShort =>
    rcases seq h with ⟨_, hEnd, hStep⟩
    refine .ends ?_ (endOperator_flushes hMode hEnd) (stepBetween_enters hStep)
    rw [hMode]
    cases hKind : long? first with
    | none => exact .inl hKind
    | some kind => exact .inr fun hChar => hShort kind hChar hKind

/- Every character does one of these things, or is refused. -/
theorem step_moves (h : s.step c = .ok s') : Moves s c s' := by
  have hStep := h
  unfold State.step at h
  split at h
  · next hMode => exact step_lineStart_moves hMode hStep
  · next hMode =>
    split at h
    · next hChar =>
      cases h
      subst hChar
      exact .blankEnds hMode
    · next hChar =>
      cases h
      exact .blankGoes hMode hChar
  · next hMode =>
    refine .ends ?_ (.rest ?_) (stepBetween_enters h)
    · rw [hMode]
      trivial
    · rw [hMode]
      rfl
  · next hMode =>
    split at h
    · next hChar =>
      refine .ends ?_ (.rest ?_) (stepBetween_enters h)
      · rw [hMode]
        exact hChar
      · rw [hMode]
        rfl
    · next hChar =>
      cases h
      exact .commentGoes hMode hChar
  · next hMode =>
    split at h
    · next hChar =>
      cases h
      exact .wordGoes hMode hChar
    · next hChar =>
      refine .ends ?_ (endWord_flushes hMode) (stepBetween_enters h)
      rw [hMode]
      exact Bool.eq_false_iff.mpr hChar
  · next hMode =>
    split at h
    · next hChar =>
      cases h
      exact .numberGoes hMode hChar
    · next hChar =>
      refine .ends ?_ (endNumber_flushes hMode) (stepBetween_enters h)
      rw [hMode]
      exact Bool.eq_false_iff.mpr hChar
  · next hMode => exact step_string_moves hMode hStep
  · next hMode =>
    split at h
    · next value hValue =>
      cases h
      exact .escapeEnds hMode hValue
    · cases h
  · next hMode =>
    split at h
    · next hChar =>
      cases h
      subst hChar
      exact .joined hMode
    · cases h
  · next hMode => exact step_operator_moves hMode hStep

------------------------------------------------------------
-- Texts
------------------------------------------------------------

/- A text is read one character after another, and then closed. -/
theorem run_eq_ok {tokens : List Token} :
    s.run chars = .ok tokens ↔
      ∃ last flushed, chars.foldlM State.step s = .ok last ∧
          last.flush = .ok flushed ∧ flushed.close = tokens := by
  induction chars generalizing s with
  | nil =>
    rw [State.run, map_eq_ok]
    constructor
    · rintro ⟨flushed, hFlush, hClose⟩
      exact ⟨s, flushed, rfl, hFlush, hClose⟩
    · rintro ⟨_, flushed, hLast, hFlush, hClose⟩
      cases hLast
      exact ⟨flushed, hFlush, hClose⟩
  | cons c _ ih =>
    rw [State.run, foldlM_cons]
    cases s.step c with
    | error =>
      constructor
      · nofun
      · rintro ⟨_, _, hLast, _⟩
        cases hLast
    | ok => exact ih

/-
  What holds before the first character of a text, and is kept
  by every character, holds wherever the lexer gets to.
-/
theorem foldlM_step_induction {P : List Char → State → Prop} {last : State}
    (hStart : P [] State.start)
    (hStep :
      ∀ before s c s', (before ++ [c]).foldlM State.step State.start = .ok s' →
          P before s → Moves s c s' → P (before ++ [c]) s')
    (h : chars.foldlM State.step State.start = .ok last) :
    P chars last := by
  -- The induction is on the text from its end: what is read of it
  -- grows to the right.
  induction chars using reverseRecOn generalizing last with
  | nil =>
    cases h
    exact hStart
  | append_singleton before c ih =>
    have hRun := h
    rw [foldlM_append, bind_eq_ok] at h
    rcases h with ⟨s, hBefore, hLast⟩
    rw [foldlM_cons, bind_eq_ok] at hLast
    rcases hLast with ⟨_, hNext, hDone⟩
    cases hDone
    exact hStep before s c last hRun (ih hBefore) (step_moves hNext)

/- The token that ends the last line, where it is not ended yet. -/
def lastNewline (s : State) : List Token :=
  match s.emitted with
  | [] => []
  | last :: _ => if last.kind = .newline then [] else [⟨.newline, "", s.line⟩]

/- All tokens of a text but the last one, the last first. -/
def closedTokens (s : State) : List Token :=
  replicate s.indents.length ⟨.dedent, "", s.line⟩ ++ (lastNewline s ++ s.emitted)

theorem close_eq (s : State) :
    s.close = (closedTokens s).reverse ++ [⟨.eof, "", s.line⟩] := by
  have hNewline : (lastNewline s).reverse = lastNewline s := by
    unfold lastNewline
    split
    · rfl
    · split <;> rfl
  unfold closedTokens
  rw [reverse_append, reverse_append, reverse_replicate, hNewline, ← map_const']
  rfl

end Lexer

end Script

end Pep9
