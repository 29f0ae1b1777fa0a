import Mathlib.Data.List.DropRight
import Mathlib.Data.List.Forall2
import Pep9.Proofs.Script.Scanning

/-
  Where the tokens of a text stand in it. The text of a script
  is covered by them, but for blanks, comments and joints of
  lines, and for lines that are taken as blank because of the
  character they start with.

  Key theorems: `Lexer.Enters.tracks`, `Lexer.Moves.tracks`,
  `lex_spanned`.
-/

namespace Pep9

open List

variable {span : Span}

namespace Script

open Lexer

/- A stretch of a text between two positions. -/
structure Span where
  start : Nat
  stop : Nat
deriving DecidableEq, Repr

namespace Span

def Has (span : Span) (i : Nat) : Prop := span.start ≤ i ∧ i < span.stop

/- The characters of a text in a span. -/
def text (span : Span) (source : List Char) : List Char :=
  (source.drop span.start).take (span.stop - span.start)

end Span

/- What a place in a line belongs to. -/
inductive Region where
  | code
  | comment
  | literal (quote : Char)
  | escaped (quote : Char)
deriving DecidableEq, Repr

/- The region behind one more character of a line. -/
def Region.next : Region → Char → Region
  | code, c =>
    if c = '#' then comment
    else if isQuote c then literal c
    else code
  | comment, _ => comment
  | literal quote, c =>
    if c = quote then code
    else if c = '\\' then escaped quote
    else literal quote
  | escaped quote, _ => literal quote

/- The region behind some characters of a line. -/
def regionOf (line : List Char) : Region := line.foldl Region.next .code

/- The part of a text behind its last line break. -/
def lastLine (text : List Char) : List Char := text.rtakeWhile (· ≠ '\n')

/- The lines of a text before its last one. -/
def linesAbove (text : List Char) : List Char := text.rdropWhile (· ≠ '\n')

/- A text that ends in a comment. -/
def InComment (text : List Char) : Prop := regionOf (lastLine text) = .comment

/-
  A position of a text with a character of the program: it is
  no white space, not part of a comment, and no backslash that
  joins two lines.
-/
structure Significant (source : List Char) (i : Nat) : Prop where
  char : ∃ c, source[i]? = some c ∧ isGap c = false ∧ c ≠ '\n' ∧
      ¬ (c = '\\' ∧ source[i + 1]? = some '\n')
  notComment : ¬ InComment (source.take (i + 1))

/- A new line of the program starts behind a text. -/
def StartsLine (text : List Char) : Prop :=
  ∃ s column, text.foldlM Lexer.State.step Lexer.State.start = .ok s ∧ s.mode = .lineStart column

/-
  Whether a line starts, behind its margin, with a carriage
  return or a zero character.
-/
def isVeiled (line : List Char) : Bool :=
  match line.dropWhile isMargin with
  | [] => false
  | c :: _ => c == '\r' || c == '\x00'

/- A text that ends in a line of the program with such a start. -/
structure Veiled (text : List Char) : Prop where
  first : isVeiled (lastLine text) = true
  above : StartsLine (linesAbove text)

/- The text of a literal between its quotation marks, and its value. -/
inductive Denotes (quote : Char) : List Char → List Char → Prop where
  | nil : Denotes quote [] []
  | plain {c : Char} {body value : List Char} (hBody : Denotes quote body value)
      (hQuote : c ≠ quote) (hEscape : c ≠ '\\') : Denotes quote (body ++ [c]) (value ++ [c])
  | escape {c d : Char} {body value : List Char} (hBody : Denotes quote body value)
      (hValue : escape? c = some d) : Denotes quote (body ++ ['\\', c]) (value ++ [d])

/-
  A token is what stands in a span of a text. Layout tokens
  stand for nothing, or for a line break.
-/
structure Spells (source : List Char) (t : Token) (span : Span) : Prop where
  start_le : span.start ≤ span.stop
  stop_le : span.stop ≤ source.length
  spelled : t.kind.isSpelled = true → span.text source = t.lexeme.toList
  literal : t.kind = .string → ∃ quote body, isQuote quote = true ∧
          span.text source = quote :: (body ++ [quote]) ∧ Denotes quote body t.lexeme.toList
  layout : t.kind.isSpelled = false → t.kind ≠ .string → span.text source = [] ∨
        t.kind = .newline ∧ span.text source = ['\n']

/-
  The spans of the tokens of a text, in their order. Each
  character of the program is in the span of one token, unless
  its line is veiled; no token stands for anything in such a
  line.
-/
structure Spanned (source : List Char) (tokens : List Token) (spans : List Span) : Prop where
  spells : List.Forall₂ (Spells source) tokens spans
  ordered : spans.Pairwise fun span next => span.stop ≤ next.start
  covered : ∀ i, Significant source i → ¬ Veiled (source.take (i + 1)) →
      ∃! k : Nat, ∃ span, spans[k]? = some span ∧ span.Has i
  dropped : ∀ i, Veiled (source.take (i + 1)) → ∀ span ∈ spans, ¬ span.Has i

theorem lastLine_newline (before : List Char) :
    lastLine (before ++ ['\n']) = [] := by
  unfold lastLine
  rw [rtakeWhile_concat, if_neg (by decide)]

variable {c : Char} {line before source : List Char} {emitted : List Token} {spans : List Span}

theorem lastLine_concat
    (before : List Char)
    (h : c ≠ '\n') :
    lastLine (before ++ [c]) = lastLine before ++ [c] := by
  unfold lastLine
  rw [rtakeWhile_concat, if_pos (decide_eq_true h)]

theorem linesAbove_newline (before : List Char) :
    linesAbove (before ++ ['\n']) = before ++ ['\n'] := by
  unfold linesAbove
  rw [rdropWhile_concat, if_neg (by decide)]

theorem linesAbove_concat
    (before : List Char)
    (h : c ≠ '\n') :
    linesAbove (before ++ [c]) = linesAbove before := by
  unfold linesAbove
  rw [rdropWhile_concat, if_pos (decide_eq_true h)]

theorem regionOf_concat
    (line : List Char)
    (c : Char) :
    regionOf (line ++ [c]) = (regionOf line).next c := by
  unfold regionOf
  rw [foldl_append]
  rfl

theorem regionOf_lastLine
    (before : List Char)
    (h : c ≠ '\n') :
    regionOf (lastLine (before ++ [c])) = (regionOf (lastLine before)).next c := by
  rw [lastLine_concat before h, regionOf_concat]

theorem isVeiled_concat
    (c : Char)
    (h : isVeiled line = true) :
    isVeiled (line ++ [c]) = true := by
  unfold isVeiled at h ⊢
  cases hRest : line.dropWhile isMargin with
  | nil =>
    rw [hRest] at h
    cases h
  | cons =>
    rw [hRest] at h
    rw [dropWhile_append, hRest]
    exact h

theorem isVeiled_margin
    (hLine : ∀ d ∈ line, isMargin d = true)
    (hChar : c = '\r' ∨ c = '\x00') :
    isVeiled (line ++ [c]) = true := by
  unfold isVeiled
  rw [dropWhile_append_of_pos hLine]
  rcases hChar with rfl | rfl
  · rfl
  · rfl

/- Characters that end neither a line nor its code. -/
structure Ordinary (c : Char) : Prop where
  line : c ≠ '\n'
  comment : c ≠ '#'
  quote : isQuote c = false

theorem ordinary_of
    (p : Char → Bool)
    (h : p c = true)
    (hOthers : ['\n', '#', '"', '\''].all (fun d => !p d) = true) :
    Ordinary c := by
  simp only [all_cons, all_nil, Bool.and_true,
    Bool.and_eq_true, Bool.not_eq_true'] at hOthers
  rcases hOthers with ⟨hLine, hComment, hDouble, hSingle⟩
  refine ⟨?_, ?_, ?_⟩
  · rintro rfl
    cases hLine.symm.trans h
  · rintro rfl
    cases hComment.symm.trans h
  · refine Bool.eq_false_iff.mpr fun hQuote => ?_
    simp only [isQuote, Bool.or_eq_true, beq_iff_eq] at hQuote
    rcases hQuote with rfl | rfl
    · cases hDouble.symm.trans h
    · cases hSingle.symm.trans h

/- Code goes on behind such a character. -/
theorem Ordinary.region
    (h : Ordinary c)
    (hPlace : regionOf (lastLine before) = .code ∨ c = '\n') :
    regionOf (lastLine (before ++ [c])) = .code := by
  rw [regionOf_lastLine before h.line, hPlace.resolve_right h.line,
    Region.next, if_neg h.comment, h.quote]
  rfl

theorem regionOf_margin (h : ∀ c ∈ line, isMargin c = true) :
    regionOf line = .code := by
  induction line using reverseRecOn with
  | nil => rfl
  | append_singleton _ c ih =>
    have hChar : Ordinary c := ordinary_of isMargin (h c (by simp)) (by decide)
    rw [regionOf_concat, ih fun d hD => h d (mem_append_left _ hD),
      Region.next, if_neg hChar.comment, hChar.quote]
    rfl

theorem InComment.append
    (h : InComment before)
    (hChar : c ≠ '\n') :
    InComment (before ++ [c]) := by
  unfold InComment at h ⊢
  rw [regionOf_lastLine before hChar, h]
  rfl

theorem Veiled.append
    (h : Veiled before)
    (hChar : c ≠ '\n') :
    Veiled (before ++ [c]) where
  first := by
    rw [lastLine_concat before hChar]
    exact isVeiled_concat c h.first
  above := by
    rw [linesAbove_concat before hChar]
    exact h.above

/-
  A text that ends in a line of the program whose first character
  shows it.
-/
def Unveiled (text : List Char) : Prop :=
  StartsLine (linesAbove text) → ∃ c rest, (lastLine text).dropWhile isMargin = c :: rest ∧
        c ≠ '\r' ∧ c ≠ '\x00'

namespace Unveiled

theorem not_veiled (h : Unveiled before) : ¬ Veiled before := by
  intro hVeiled
  rcases h hVeiled.above with ⟨_, _, hLine, hReturn, hZero⟩
  have hFirst := hVeiled.first
  unfold isVeiled at hFirst
  rw [hLine] at hFirst
  simp [hReturn, hZero] at hFirst

theorem append
    (h : Unveiled before)
    (hChar : c ≠ '\n') :
    Unveiled (before ++ [c]) := by
  intro hAbove
  rw [linesAbove_concat before hChar] at hAbove
  rcases h hAbove with ⟨first, rest, hLine, hFirst⟩
  refine ⟨first, rest ++ [c], ?_, hFirst⟩
  rw [lastLine_concat before hChar, dropWhile_append, hLine]
  rfl

/- The first character of a line behind its margin. -/
theorem first
    (hLine : ∀ d ∈ lastLine before, isMargin d = true)
    (hMargin : isMargin c = false)
    (hBlank : startsBlankLine c = false) :
    Unveiled (before ++ [c]) := by
  simp only [startsBlankLine, Bool.or_eq_false_iff, beq_eq_false_iff_ne] at hBlank
  rcases hBlank with ⟨⟨⟨hBreak, hReturn⟩, _⟩, hZero⟩
  refine fun _ => ⟨c, [], ?_, hReturn, hZero⟩
  rw [lastLine_concat before hBreak, dropWhile_append_of_pos hLine,
    dropWhile_cons_of_neg (by rw [hMargin]; decide)]

end Unveiled

theorem isGap_of_isMargin (h : isMargin c = true) : isGap c = true := by
  simp only [isMargin, isGap, Bool.or_eq_true, beq_iff_eq] at h ⊢
  tauto

theorem ne_of_isQuote (h : isQuote c = true) : c ≠ '\n' ∧ c ≠ '#' := by
  constructor
  · rintro rfl
    cases h
  · rintro rfl
    cases h

------------------------------------------------------------
-- Positions
------------------------------------------------------------

section Positions

variable {i : Nat}

theorem take_append_lt (h : i < before.length) :
    (before ++ [c]).take (i + 1) = before.take (i + 1) := take_append_of_le_length h

theorem take_append_length
    (before : List Char)
    (c : Char) :
    (before ++ [c]).take (before.length + 1) = before ++ [c] := take_of_length_le (by simp)

/- What follows cannot make a character part of the program. -/
theorem Significant.of_append
    (hI : i < before.length)
    (h : Significant (before ++ [c]) i) :
    Significant before i := by
  rcases h.char with ⟨d, hD, hGap, hLine, hJoint⟩
  rw [getElem?_append_left hI] at hD
  refine ⟨⟨d, hD, hGap, hLine, fun ⟨hEscape, hNext⟩ => ?_⟩, ?_⟩
  · refine hJoint ⟨hEscape, ?_⟩
    have hSmall := (List.getElem?_eq_some_iff.mp hNext).1
    rw [getElem?_append_left hSmall]
    exact hNext
  · rw [← take_append_lt hI]
    exact h.notComment

/- A character at the end that is not part of the program. -/
theorem not_significant_last
    (h : isGap c = true ∨ c = '\n' ∨ InComment (before ++ [c])) :
    ¬ Significant (before ++ [c]) before.length := by
  intro hSignificant
  rcases hSignificant.char with ⟨_, hD, hGap, hLine, _⟩
  rw [getElem?_concat_length] at hD
  cases hD
  rcases h with h | h | h
  · cases hGap.symm.trans h
  · exact hLine h
  · refine hSignificant.notComment ?_
    rw [take_append_length]
    exact h

/- The backslash of a joint of two lines. -/
theorem not_significant_joint (h : source.drop i = ['\\', '\n']) :
    ¬ Significant source i := by
  intro hSignificant
  rcases hSignificant.char with ⟨_, hD, _, _, hJoint⟩
  have hNext : source[i + 1]? = some '\n' := by
    rw [← getElem?_drop, h]
    rfl
  have hHere : source[i]? = some '\\' := by
    rw [← Nat.add_zero i, ← getElem?_drop, h]
    rfl
  rw [hHere] at hD
  cases hD
  exact hJoint ⟨rfl, hNext⟩

end Positions

theorem text_append
    (c : Char)
    (hStart : span.start ≤ span.stop)
    (hStop : span.stop ≤ before.length) :
    span.text (before ++ [c]) = span.text before := by
  unfold Span.text
  rw [drop_append_of_le_length (hStart.trans hStop), take_append_of_le_length]
  rw [length_drop]
  omega

theorem text_toEnd
    (before : List Char)
    (settled : Nat) :
    Span.text ⟨settled, before.length⟩ before = before.drop settled := by
  unfold Span.text
  rw [take_of_length_le]
  rw [length_drop]

theorem text_empty
    (before : List Char)
    (i : Nat) :
    Span.text ⟨i, i⟩ before = [] := by
  unfold Span.text
  rw [Nat.sub_self, take_zero]

theorem Spells.append {t : Token}
    (h : Spells before t span)
    (c : Char) :
    Spells (before ++ [c]) t span := by
  have hText := text_append c h.start_le h.stop_le
  refine ⟨h.start_le, ?_, ?_, ?_, ?_⟩
  · rw [length_append]
    exact h.stop_le.trans (Nat.le_add_right _ _)
  · rw [hText]
    exact h.spelled
  · rw [hText]
    exact h.literal
  · rw [hText]
    exact h.layout

namespace Lexer

variable {line : Int}

/- From a position on, nothing of a text is veiled. -/
def Open (before : List Char) (start : Nat) : Prop :=
  ∀ i, start ≤ i → i < before.length → ¬ Veiled (before.take (i + 1))

theorem Open.append {start : Nat}
    (h : Open before start)
    (hLast : ¬ Veiled (before ++ [c])) :
    Open (before ++ [c]) start := by
  intro i hLow hHigh
  rcases Nat.lt_or_ge i before.length with hSmall | hLarge
  · rw [take_append_lt hSmall]
    exact h i hLow hSmall
  · rw [length_append, length_singleton] at hHigh
    obtain rfl : i = before.length := by omega
    rw [take_append_length]
    exact hLast

theorem open_length (before : List Char) : Open before before.length :=
  fun _ hLow hHigh => absurd hHigh (Nat.not_lt.mpr hLow)

/-
  What has been read of a text is accounted for up to a
  position. Tokens and spans are kept with the last first.
-/
structure Accounts (before : List Char) (settled : Nat) (emitted : List Token)
    (spans : List Span) : Prop where
  spells : List.Forall₂ (Spells before) emitted spans
  ordered : spans.Pairwise fun span earlier => earlier.stop ≤ span.start
  within : ∀ span ∈ spans, span.stop ≤ settled
  settled_le : settled ≤ before.length
  covered : ∀ i < settled, Significant before i → ¬ Veiled (before.take (i + 1)) →
        ∃ span ∈ spans, span.Has i
  dropped : ∀ span ∈ spans, ∀ i, span.Has i → ¬ Veiled (before.take (i + 1))

namespace Accounts

variable {settled : Nat}

theorem start : Accounts [] 0 [] [] where
  spells := .nil
  ordered := .nil
  within := nofun
  settled_le := Nat.le_refl 0
  covered := nofun
  dropped := nofun

variable (h : Accounts before settled emitted spans)
include h

/- One more character is read, and not accounted for. -/
theorem append (c : Char) :
    Accounts (before ++ [c]) settled emitted spans where
  spells := h.spells.imp fun _ _ hSpells => hSpells.append c
  ordered := h.ordered
  within := h.within
  settled_le := by
    rw [length_append]
    exact h.settled_le.trans (Nat.le_add_right _ _)
  covered := by
    intro i hI hSignificant hOpen
    have hSmall := hI.trans_le h.settled_le
    rw [take_append_lt hSmall] at hOpen
    exact h.covered i hI (hSignificant.of_append hSmall) hOpen
  dropped := by
    intro span hSpan i hHas
    have hStop := (h.within span hSpan).trans h.settled_le
    rw [take_append_lt (hHas.2.trans_le hStop)]
    exact h.dropped span hSpan i hHas

/- What is no part of the program is accounted for. -/
theorem skip {stop : Nat}
    (hStart : settled ≤ stop)
    (hStop : stop ≤ before.length)
    (hSkip : ∀ i, settled ≤ i → i < stop →
        ¬ Significant before i ∨ Veiled (before.take (i + 1))) :
    Accounts before stop emitted spans where
  spells := h.spells
  ordered := h.ordered
  within := fun span hSpan => (h.within span hSpan).trans hStart
  settled_le := hStop
  covered := by
    intro i hI hSignificant hOpen
    rcases Nat.lt_or_ge i settled with hSmall | hLarge
    · exact h.covered i hSmall hSignificant hOpen
    · rcases hSkip i hLarge hI with hNone | hVeiled
      · exact absurd hSignificant hNone
      · exact absurd hVeiled hOpen
  dropped := h.dropped

/- A token accounts for all that has been read. -/
theorem add {t : Token}
    (hOpen : Open before settled)
    (hToken : Spells before t ⟨settled, before.length⟩) :
    Accounts before before.length (t :: emitted) (⟨settled, before.length⟩ :: spans) where
  spells := .cons hToken h.spells
  ordered := pairwise_cons.mpr ⟨h.within, h.ordered⟩
  within := by
    refine forall_mem_cons.mpr ⟨Nat.le_refl _, fun span hSpan => ?_⟩
    exact (h.within span hSpan).trans hToken.start_le
  settled_le := Nat.le_refl _
  covered := by
    intro i hI hSignificant hShown
    rcases Nat.lt_or_ge i settled with hSmall | hLarge
    · rcases h.covered i hSmall hSignificant hShown with ⟨span, hSpan, hHas⟩
      exact ⟨span, mem_cons_of_mem _ hSpan, hHas⟩
    · exact ⟨_, mem_cons_self, hLarge, hI⟩
  dropped := forall_mem_cons.mpr ⟨fun i hHas => hOpen i hHas.1 hHas.2, h.dropped⟩

end Accounts

/- All that has been read is accounted for. -/
def Settled (before : List Char) (emitted : List Token) : Prop :=
  ∃ spans, Accounts before before.length emitted spans

namespace Settled

/- A character that is no part of the program, or is veiled. -/
theorem skip
    (h : Settled before emitted)
    (hSkip :
      (isGap c = true ∨ c = '\n' ∨ InComment (before ++ [c])) ∨ Veiled (before ++ [c])) :
    Settled (before ++ [c]) emitted := by
  rcases h with ⟨spans, h⟩
  refine ⟨spans, (h.append c).skip ?_ (Nat.le_refl _) fun i hLow hHigh => ?_⟩
  · rw [length_append]
    exact Nat.le_add_right _ _
  · rw [length_append, length_singleton] at hHigh
    obtain rfl : i = before.length := by omega
    rcases hSkip with hSkip | hVeiled
    · exact .inl (not_significant_last hSkip)
    · rw [take_append_length]
      exact .inr hVeiled

/- A token of layout that no character stands for. -/
theorem layout {kind : Kind}
    (h : Settled before emitted)
    (hSpelled : kind.isSpelled = false)
    (hString : kind ≠ .string) :
    Settled before (⟨kind, "", line⟩ :: emitted) := by
  rcases h with ⟨_, h⟩
  refine ⟨_, h.add (open_length before) ⟨Nat.le_refl _, Nat.le_refl _,
    fun hKind => ?_, fun hKind => absurd hKind hString, fun _ _ => .inl ?_⟩⟩
  · cases hSpelled.symm.trans hKind
  · exact text_empty before before.length

end Settled

/- A joint of two lines is part of no token. -/
theorem Accounts.join {settled : Nat}
    (h : Accounts (before ++ ['\n']) settled emitted spans)
    (hText : (before ++ ['\n']).drop settled = ['\\', '\n']) :
    Settled (before ++ ['\n']) emitted := by
  have hLength : settled + 1 = before.length := by
    have hCount := congrArg List.length hText
    simp only [length_drop, length_append, length_cons, length_nil] at hCount
    omega
  refine ⟨spans, h.skip h.settled_le (Nat.le_refl _) fun i hLow hHigh => ?_⟩
  rw [length_append, length_singleton] at hHigh
  rcases Nat.eq_or_lt_of_le hLow with rfl | hLow
  · exact .inl (not_significant_joint hText)
  · obtain rfl : i = before.length := by omega
    exact .inl (not_significant_last (.inr (.inl rfl)))

section

variable {settled : Nat} (h : Accounts before settled emitted spans)
  (hOpen : Open before settled)
include h hOpen

/- A token that ends with what has been read. -/
theorem Accounts.settle {t : Token}
    (hKind : t.kind.isSpelled = true)
    (hText : before.drop settled = t.lexeme.toList) :
    Settled before (t :: emitted) := by
  refine ⟨_, h.add hOpen ⟨h.settled_le, Nat.le_refl _, fun _ => ?_, ?_, ?_⟩⟩
  · rw [text_toEnd]
    exact hText
  · intro hString
    rw [hString] at hKind
    cases hKind
  · intro hLayout
    cases hLayout.symm.trans hKind

/- A string is settled with its quotes. -/
theorem Accounts.settleLiteral {body value : List Char} {quote : Char}
    (hQuote : isQuote quote = true)
    (hText : before.drop settled = quote :: (body ++ [quote]))
    (hBody : Denotes quote body value) :
    Settled before (⟨.string, String.ofList value, line⟩ :: emitted) := by
  refine ⟨_, h.add hOpen ⟨h.settled_le, Nat.le_refl _, nofun,
    fun _ => ?_, fun _ hKind => absurd rfl hKind⟩⟩
  refine ⟨quote, body, hQuote, ?_, ?_⟩
  · rw [text_toEnd]
    exact hText
  · rw [String.toList_ofList]
    exact hBody

end

------------------------------------------------------------
-- Modes
------------------------------------------------------------

/- The characters of the token that is under way. -/
def Mode.Holds (pending : List Char) : Mode → Prop
  | word backwards | number backwards => pending = backwards.reverse
  | operator first => pending = [first]
  | continuation => pending = ['\\']
  | string quote _ backwards =>
    isQuote quote = true ∧ ∃ body, pending = quote :: body ∧ Denotes quote body backwards.reverse
  | escape quote _ backwards =>
    isQuote quote = true ∧ ∃ body, pending = quote :: (body ++ ['\\']) ∧
        Denotes quote body backwards.reverse
  | _ => pending = []

/- Where in its line a text ends. -/
def Mode.Within (text : List Char) : Mode → Prop
  | lineStart _ =>
    (∀ c ∈ lastLine text, isMargin c = true) ∧ StartsLine (linesAbove text)
  | blankLine => InComment text ∨ Veiled text
  | comment => InComment text
  | string quote _ _ => regionOf (lastLine text) = .literal quote
  | escape quote _ _ => regionOf (lastLine text) = .escaped quote
  | _ => regionOf (lastLine text) = .code

/- Modes in which a line of the program is under way. -/
def Mode.isInLine : Mode → Bool
  | lineStart _ | blankLine => false
  | _ => true

/- What holds after some characters. -/
structure Tracks (before : List Char) (mode : Mode) (emitted : List Token) : Prop where
  accounts : ∃ settled spans, Accounts before settled emitted spans ∧ Open before settled ∧
        mode.Holds (before.drop settled)
  within : mode.Within before
  unveiled : mode.isInLine = true → Unveiled before

theorem Tracks.start : Tracks [] State.start.mode State.start.emitted where
  accounts := ⟨0, [], .start, open_length [], rfl⟩
  within := ⟨nofun, State.start, 0, rfl, rfl⟩
  unveiled := nofun

section Resting

variable {mode : Mode}

theorem holds_of_isResting {pending : List Char}
    (hMode : mode.isResting = true) :
    mode.Holds pending ↔ pending = [] := by
  cases mode with
  | lineStart | blankLine | between | comment => exact Iff.rfl
  | _ => cases hMode

/- No token is under way where all is accounted for. -/
theorem Settled.tracks
    (h : Settled before emitted)
    (hMode : mode.isResting = true)
    (hWithin : mode.Within before)
    (hUnveiled : mode.isInLine = true → Unveiled before) :
    Tracks before mode emitted := by
  rcases h with ⟨spans, h⟩
  refine ⟨⟨before.length, spans, h, open_length before, ?_⟩, hWithin, hUnveiled⟩
  exact (holds_of_isResting hMode).mpr drop_length

theorem Tracks.settled
    (h : Tracks before mode emitted)
    (hMode : mode.isResting = true) :
    Settled before emitted := by
  rcases h.accounts with ⟨settled, spans, hAccounts, _, hHolds⟩
  have hNone := (holds_of_isResting hMode).mp hHolds
  have hAll : settled = before.length :=
    hAccounts.settled_le.antisymm (drop_eq_nil_iff.mp hNone)
  exact ⟨spans, hAll ▸ hAccounts⟩

end Resting

variable {s : State} {column : Nat}

/- The token under way accounts for its characters. -/
theorem Flushes.settled {t : State}
    (h : Flushes s t)
    (hS : Tracks before s.mode s.emitted) :
    Settled before t.emitted := by
  cases h with
  | rest hMode => exact hS.settled hMode
  | @token _ text hMode hKind =>
    rcases hS.accounts with ⟨settled, _, hAccounts, hOpen, hHolds⟩
    refine hAccounts.settle hOpen hKind ?_
    have hText : before.drop settled = text := by
      cases hCase : s.mode with
      | word | number | operator =>
        rw [hCase] at hHolds hMode
        cases hMode
        exact hHolds
      | _ =>
        rw [hCase] at hMode
        cases hMode
    rw [hText]
    exact String.toList_ofList.symm

theorem indentTo_settled {s' : State}
    (hS : Settled before s.emitted)
    (h : s.indentTo column = .ok s') :
    Settled before s'.emitted := by
  refine indentTo_induction hS (fun _ _ hKind hTokens => ?_) h
  rcases hKind with rfl | rfl
  · exact hTokens.layout rfl (by decide)
  · exact hTokens.layout rfl (by decide)

section Characters

variable {mode mode' : Mode} {t s' : State}

/- A token starts with a character. -/
theorem Settled.begins
    (h : Settled before emitted)
    (hUnveiled : ¬ Veiled (before ++ [c])) :
    ∃ settled spans, Accounts (before ++ [c]) settled emitted spans ∧ Open (before ++ [c]) settled ∧
        (before ++ [c]).drop settled = [c] := by
  rcases h with ⟨spans, h⟩
  exact ⟨before.length, spans, h.append c, (open_length before).append hUnveiled, drop_left⟩

/- A token starts with a character. -/
theorem Settled.starts
    (h : Settled before emitted)
    (hUnveiled : Unveiled (before ++ [c]))
    (hHolds : mode.Holds [c])
    (hWithin : mode.Within (before ++ [c])) :
    Tracks (before ++ [c]) mode emitted := by
  rcases h.begins hUnveiled.not_veiled with ⟨settled, spans, hAccounts, hOpen, hText⟩
  refine ⟨⟨settled, spans, hAccounts, hOpen, ?_⟩, hWithin, fun _ => hUnveiled⟩
  rw [hText]
  exact hHolds

/- The token under way goes on with a character. -/
theorem Tracks.goes
    (h : Tracks before mode emitted)
    (hUnveiled : ¬ Veiled (before ++ [c])) :
    ∃ settled spans pending, Accounts (before ++ [c]) settled emitted spans ∧
        Open (before ++ [c]) settled ∧ (before ++ [c]).drop settled = pending ++ [c] ∧
        mode.Holds pending := by
  rcases h.accounts with ⟨settled, spans, hAccounts, hOpen, hHolds⟩
  exact ⟨settled, spans, before.drop settled, hAccounts.append c, hOpen.append hUnveiled,
    drop_append_of_le_length hAccounts.settled_le, hHolds⟩

/- A token goes on with a character. -/
theorem Tracks.continues
    (h : Tracks before mode emitted)
    (hInLine : mode.isInLine = true)
    (hLine : c ≠ '\n')
    (hHolds : ∀ pending, mode.Holds pending → mode'.Holds (pending ++ [c]))
    (hWithin : mode.Within before → mode'.Within (before ++ [c])) :
    Tracks (before ++ [c]) mode' emitted := by
  have hUnveiled := (h.unveiled hInLine).append hLine
  rcases h.goes hUnveiled.not_veiled with
    ⟨settled, spans, pending, hAccounts, hOpen, hText, hPending⟩
  refine ⟨⟨settled, spans, hAccounts, hOpen, ?_⟩, hWithin h.within, fun _ => hUnveiled⟩
  rw [hText]
  exact hHolds pending hPending

theorem not_veiled_break (before : List Char) :
    ¬ Veiled (before ++ ['\n']) := by
  intro h
  have hFirst := h.first
  rw [lastLine_newline] at hFirst
  cases hFirst

section

variable (hRun : (before ++ ['\n']).foldlM State.step State.start = .ok s')
include hRun

/- A line starts behind a line break. -/
theorem within_lineStart (hMode : s'.mode = .lineStart column) :
    s'.mode.Within (before ++ ['\n']) := by
  rw [hMode]
  refine ⟨?_, ?_⟩
  · rw [lastLine_newline]
    nofun
  · rw [linesAbove_newline]
    exact ⟨s', column, hRun, hMode⟩

/- A line goes on behind a line break. -/
theorem unveiled_break (hMode : s'.mode.isInLine = true) :
    Unveiled (before ++ ['\n']) := by
  intro hAbove
  rw [linesAbove_newline] at hAbove
  rcases hAbove with ⟨_, _, hOther, hStart⟩
  cases hRun.symm.trans hOther
  rw [hStart] at hMode
  cases hMode

/- A line break ends a line that holds no token. -/
theorem tracks_break
    (hMode : s'.mode = .lineStart column)
    (h : Settled before s'.emitted) :
    Tracks (before ++ ['\n']) s'.mode s'.emitted := by
  refine (h.skip (.inl (.inr (.inl rfl)))).tracks (by rw [hMode]; rfl)
    (within_lineStart hRun hMode) fun hInLine => ?_
  rw [hMode] at hInLine
  cases hInLine

end

theorem Settled.newline (h : Settled before emitted) :
    Settled (before ++ ['\n']) (⟨.newline, "", line⟩ :: emitted) := by
  rcases h.begins (not_veiled_break before) with ⟨_, _, hAccounts, hOpen, hText⟩
  refine ⟨_, hAccounts.add hOpen ⟨hAccounts.settled_le, Nat.le_refl _,
    nofun, nofun, fun _ _ => .inr ⟨rfl, ?_⟩⟩⟩
  rw [text_toEnd]
  exact hText

/- What starts with a character is tracked. -/
theorem Enters.tracks
    (h : Enters t c s')
    (hT : Settled before t.emitted)
    (hPlace : regionOf (lastLine before) = .code ∨ c = '\n')
    (hUnveiled : c ≠ '\n' → Unveiled (before ++ [c]))
    (hRun : (before ++ [c]).foldlM State.step State.start = .ok s') :
    Tracks (before ++ [c]) s'.mode s'.emitted := by
  cases h with
  | gap hChar =>
    have hOrdinary := ordinary_of isGap hChar (by decide)
    exact (hT.skip (.inl (.inl hChar))).tracks rfl
      (hOrdinary.region hPlace) fun _ => hUnveiled hOrdinary.line
  | comment =>
    have hComment : InComment (before ++ ['#']) := by
      unfold InComment
      rw [regionOf_lastLine before (by decide), hPlace.resolve_right (by decide)]
      rfl
    exact (hT.skip (.inl (.inr (.inr hComment)))).tracks rfl hComment fun _ => hUnveiled (by decide)
  | newline => exact hT.newline.tracks rfl (within_lineStart hRun rfl) nofun
  | fold =>
    refine (hT.skip (.inl (.inr (.inl rfl)))).tracks rfl ?_ fun _ => unveiled_break hRun rfl
    show regionOf (lastLine (before ++ ['\n'])) = .code
    rw [lastLine_newline]
    rfl
  | word hChar =>
    have hOrdinary := ordinary_of isWordStart hChar (by decide)
    exact hT.starts (hUnveiled hOrdinary.line) rfl (hOrdinary.region hPlace)
  | number hChar =>
    have hOrdinary := ordinary_of Char.isDigit hChar (by decide)
    exact hT.starts (hUnveiled hOrdinary.line) rfl (hOrdinary.region hPlace)
  | string hChar =>
    have hOther := ne_of_isQuote hChar
    refine hT.starts (hUnveiled hOther.1) ⟨hChar, [], rfl, .nil⟩ ?_
    show regionOf (lastLine (before ++ [c])) = .literal c
    rw [regionOf_lastLine before hOther.1,
      hPlace.resolve_right hOther.1, Region.next, if_neg hOther.2, hChar]
    rfl
  | continuation =>
    have hOrdinary : Ordinary '\\' := ⟨by decide, by decide, by decide⟩
    exact hT.starts (hUnveiled hOrdinary.line) rfl (hOrdinary.region hPlace)
  | operator hKind =>
    have hOrdinary := ordinary_of (fun c => (long? c).isSome)
      (Option.isSome_of_eq_some hKind) (by decide)
    exact hT.starts (hUnveiled hOrdinary.line) rfl (hOrdinary.region hPlace)
  | lone hKind =>
    have hOrdinary := ordinary_of (fun c => (lone? c).isSome)
      (Option.isSome_of_eq_some hKind) (by decide)
    have hShown := hUnveiled hOrdinary.line
    rcases hT.begins hShown.not_veiled with ⟨_, _, hAccounts, hOpen, hText⟩
    refine Settled.tracks (hAccounts.settle hOpen (lone_isSpelled hKind).1 ?_) rfl
      (hOrdinary.region hPlace) fun _ => hShown
    rw [hText]
    exact String.toList_ofList.symm

theorem Mode.EndsAt.isInLine (h : mode.EndsAt c) : mode.isInLine = true := by
  cases mode with
  | lineStart | blankLine => exact h.elim
  | _ => rfl

/- Where a token is under way, or none is, a text ends in code. -/
theorem Tracks.place
    (h : Tracks before mode emitted)
    (hMode : mode.EndsAt c) :
    regionOf (lastLine before) = .code ∨ c = '\n' := by
  cases mode with
  | between => exact .inl h.within
  | comment => exact .inr hMode
  | word | number | operator => exact .inl h.within
  | _ => exact hMode.elim

/- Every character keeps track of the text. -/
theorem Moves.tracks
    (h : Moves s c s')
    (hS : Tracks before s.mode s.emitted)
    (hRun : (before ++ [c]).foldlM State.step State.start = .ok s') :
    Tracks (before ++ [c]) s'.mode s'.emitted := by
  cases h with
  | margin hMode hChar =>
    rw [hMode] at hS
    have hOrdinary := ordinary_of isMargin hChar (by decide)
    refine ((hS.settled rfl).skip (.inl (.inl (isGap_of_isMargin hChar)))).tracks rfl ⟨?_, ?_⟩ nofun
    · rw [lastLine_concat before hOrdinary.line]
      exact forall_mem_append.mpr ⟨hS.within.1, forall_mem_singleton.mpr hChar⟩
    · rw [linesAbove_concat before hOrdinary.line]
      exact hS.within.2
  | emptyLine hMode =>
    rw [hMode] at hS
    exact tracks_break hRun rfl (hS.settled rfl)
  | blankStarts hMode hChar =>
    rw [hMode] at hS
    have hPlace : InComment (before ++ [c]) ∨ Veiled (before ++ [c]) := by
      rcases hChar with rfl | hChar
      · refine .inl ?_
        unfold InComment
        rw [regionOf_lastLine before (by decide), regionOf_margin hS.within.1]
        rfl
      · have hLine : c ≠ '\n' := by rcases hChar with rfl | rfl <;> decide
        refine .inr ⟨?_, ?_⟩
        · rw [lastLine_concat before hLine]
          exact isVeiled_margin hS.within.1 hChar
        · rw [linesAbove_concat before hLine]
          exact hS.within.2
    exact ((hS.settled rfl).skip (hPlace.imp_left fun hComment =>
      .inr (.inr hComment))).tracks rfl hPlace nofun
  | lineStarts hMode hMargin hBlank hIndent hEnters =>
    rw [hMode] at hS
    exact hEnters.tracks (indentTo_settled (hS.settled rfl) hIndent)
      (.inl (regionOf_margin hS.within.1)) (fun _ => .first hS.within.1 hMargin hBlank) hRun
  | blankGoes hMode hChar =>
    rw [hMode] at hS ⊢
    have hPlace : InComment (before ++ [c]) ∨ Veiled (before ++ [c]) :=
      hS.within.imp (·.append hChar) (·.append hChar)
    exact ((hS.settled rfl).skip (hPlace.imp_left fun hComment =>
      .inr (.inr hComment))).tracks rfl hPlace nofun
  | blankEnds hMode =>
    rw [hMode] at hS
    exact tracks_break hRun rfl (hS.settled rfl)
  | commentGoes hMode hChar =>
    rw [hMode] at hS ⊢
    have hComment : InComment (before ++ [c]) := InComment.append hS.within hChar
    exact ((hS.settled rfl).skip (.inl (.inr (.inr hComment)))).tracks
      rfl hComment fun _ => (hS.unveiled rfl).append hChar
  | wordGoes hMode hChar =>
    rw [hMode] at hS
    have hOrdinary := ordinary_of isWordChar hChar (by decide)
    refine hS.continues rfl hOrdinary.line ?_ fun hCode => hOrdinary.region (.inl hCode)
    rintro _ rfl
    exact reverse_cons.symm
  | numberGoes hMode hChar =>
    rw [hMode] at hS
    have hOrdinary := ordinary_of Char.isDigit hChar (by decide)
    refine hS.continues rfl hOrdinary.line ?_ fun hCode => hOrdinary.region (.inl hCode)
    rintro _ rfl
    exact reverse_cons.symm
  | stringEnds hMode =>
    rw [hMode] at hS
    have hQuote : isQuote c = true := by
      rcases hS.accounts with ⟨_, _, _, _, hHolds⟩
      exact hHolds.1
    have hLine := (ne_of_isQuote hQuote).1
    have hNext := (hS.unveiled rfl).append hLine
    rcases hS.goes hNext.not_veiled with
      ⟨_, _, _, hAccounts, hOpen, hText, _, _, rfl, hDenotes⟩
    refine (hAccounts.settleLiteral hOpen hQuote hText hDenotes).tracks rfl ?_ fun _ => hNext
    show regionOf (lastLine (before ++ [c])) = .code
    rw [regionOf_lastLine before hLine, hS.within, Region.next, if_pos rfl]
  | stringGoes hMode hQuote hLine hEscape =>
    rw [hMode] at hS
    refine hS.continues rfl hLine ?_ fun hLiteral => ?_
    · rintro _ ⟨hMark, body, rfl, hDenotes⟩
      refine ⟨hMark, body ++ [c], rfl, ?_⟩
      rw [reverse_cons]
      exact hDenotes.plain hQuote hEscape
    · show regionOf (lastLine (before ++ [c])) = _
      rw [regionOf_lastLine before hLine, hLiteral, Region.next, if_neg hQuote, if_neg hEscape]
  | escapeStarts hMode hQuote =>
    rw [hMode] at hS
    refine hS.continues rfl (by decide) ?_ fun hLiteral => ?_
    · rintro _ ⟨hMark, body, rfl, hDenotes⟩
      exact ⟨hMark, body, rfl, hDenotes⟩
    · show regionOf (lastLine (before ++ ['\\'])) = _
      rw [regionOf_lastLine before (by decide), hLiteral, Region.next, if_neg hQuote, if_pos rfl]
  | escapeEnds hMode hValue =>
    rw [hMode] at hS
    have hLine : c ≠ '\n' := by
      rintro rfl
      cases hValue
    refine hS.continues rfl hLine ?_ fun hEscaped => ?_
    · rintro _ ⟨hMark, body, rfl, hDenotes⟩
      refine ⟨hMark, body ++ ['\\', c], ?_, ?_⟩
      · rw [cons_append, append_assoc]
        rfl
      · rw [reverse_cons]
        exact hDenotes.escape hValue
    · show regionOf (lastLine (before ++ [c])) = _
      rw [regionOf_lastLine before hLine, hEscaped, Region.next]
  | joined hMode =>
    rw [hMode] at hS
    rcases hS.goes (not_veiled_break before) with ⟨_, _, _, hAccounts, _, hText, rfl⟩
    refine (hAccounts.join hText).tracks rfl ?_ fun _ => unveiled_break hRun rfl
    show regionOf (lastLine (before ++ ['\n'])) = .code
    rw [lastLine_newline]
    rfl
  | long hMode hKind =>
    rw [hMode] at hS
    have hOrdinary : Ordinary '=' := ⟨by decide, by decide, by decide⟩
    have hNext := (hS.unveiled rfl).append hOrdinary.line
    rcases hS.goes hNext.not_veiled with ⟨_, _, _, hAccounts, hOpen, hText, rfl⟩
    refine Settled.tracks (hAccounts.settle hOpen (long_isSpelled hKind).1 ?_) rfl
      (hOrdinary.region (.inl hS.within)) fun _ => hNext
    rw [hText]
    exact String.toList_ofList.symm
  | ends hMode hFlushes hEnters =>
    exact hEnters.tracks (hFlushes.settled hS) (hS.place hMode)
      (hS.unveiled hMode.isInLine).append hRun

end Characters

------------------------------------------------------------
-- Texts
------------------------------------------------------------

/- All that has been read is tracked. -/
theorem foldlM_step_tracks (h : before.foldlM State.step State.start = .ok s) :
    Tracks before s.mode s.emitted :=
  foldlM_step_induction (P := fun before s => Tracks before s.mode s.emitted)
    .start (fun _ _ _ _ hRun hBefore hMoves => hMoves.tracks hBefore hRun) h

/- The tokens that close a text stand for none of it. -/
theorem closedTokens_settled (h : Settled before s.emitted) :
    Settled before (closedTokens s) := by
  have hNewline : Settled before (lastNewline s ++ s.emitted) := by
    unfold lastNewline
    split
    · exact h
    · split
      · exact h
      · exact h.layout rfl (by decide)
  unfold closedTokens
  induction s.indents.length with
  | zero => exact hNewline
  | succ _ ih =>
    rw [replicate_succ, cons_append]
    exact ih.layout rfl (by decide)

end Lexer

/- A position is in one of the spans at most. -/
theorem existsUnique_span {i : Nat}
    (hOrdered : spans.Pairwise fun span next => span.stop ≤ next.start)
    (h : ∃ span ∈ spans, span.Has i) :
    ∃! k : Nat, ∃ span, spans[k]? = some span ∧ span.Has i := by
  have hLater : ∀ (j k : Nat) (a b : Span), j < k → spans[j]? = some a →
        spans[k]? = some b → a.Has i → ¬ b.Has i := by
    intro j k _ _ hLess hA hB hFirst hSecond
    rcases List.getElem?_eq_some_iff.mp hA with ⟨hJ, rfl⟩
    rcases List.getElem?_eq_some_iff.mp hB with ⟨hK, rfl⟩
    have hStop := pairwise_iff_getElem.mp hOrdered j k hJ hK hLess
    exact absurd (hFirst.2.trans_le hStop) (Nat.not_lt.mpr hSecond.1)
  rcases h with ⟨span, hSpan, hHas⟩
  rcases mem_iff_getElem?.mp hSpan with ⟨k, hK⟩
  refine ⟨k, ⟨span, hK, hHas⟩, ?_⟩
  rintro j ⟨other, hJ, hOther⟩
  rcases Nat.lt_trichotomy j k with hLess | hEqual | hLess
  · exact absurd hHas (hLater j k other span hLess hJ hK hOther)
  · exact hEqual
  · exact absurd hOther (hLater k j span other hLess hK hJ hHas)

/- The spans of all tokens, in their order. -/
theorem Lexer.Settled.spanned (h : Settled source emitted) :
    ∃ spans, Spanned source emitted.reverse spans := by
  rcases h with ⟨spans, h⟩
  have hOrdered : spans.reverse.Pairwise fun span next => span.stop ≤ next.start :=
    pairwise_reverse.mpr h.ordered
  refine ⟨spans.reverse, forall₂_reverse_iff.mpr h.spells, hOrdered,
    fun i hSignificant hOpen => ?_, fun i hVeiled span hSpan hHas => ?_⟩
  · rcases hSignificant.char with ⟨_, hChar, _⟩
    have hSmall := (List.getElem?_eq_some_iff.mp hChar).1
    rcases h.covered i hSmall hSignificant hOpen with ⟨span, hSpan, hHas⟩
    exact existsUnique_span hOrdered ⟨span, mem_reverse.mpr hSpan, hHas⟩
  · exact h.dropped span (mem_reverse.mp hSpan) i hHas hVeiled

/- The tokens of a text cover it, but for veiled lines. -/
theorem lex_spanned {source : String} {tokens : List Token}
    (h : lex source = .ok tokens) :
    ∃ spans, Spanned source.toList tokens spans := by
  rcases run_eq_ok.mp h with ⟨_, flushed, hRead, hFlush, rfl⟩
  have hSettled := (flush_flushes hFlush).settled (foldlM_step_tracks hRead)
  have hClosed : Settled source.toList (⟨.eof, "", flushed.line⟩ :: closedTokens flushed) :=
    (closedTokens_settled hSettled).layout rfl (by decide)
  rw [close_eq, ← reverse_cons]
  exact hClosed.spanned

/- A literal with a quotation mark and a number sign, and joined lines. -/
def joinedLines : String := "x = ['a\\'#', # b\n \r2] \\\n + y\n \t# z\n"

theorem lex_spanned_joinedLines :
    ∃ tokens spans, lex joinedLines = .ok tokens ∧
        tokens.length = 11 ∧ Spanned joinedLines.toList tokens spans := by
  have hTokens : (lex joinedLines).toOption.any (fun tokens =>
        decide (tokens.length = 11)) = true := by
    decide +kernel
  rcases Result.any_eq_true.mp hTokens with ⟨tokens, hLex, hCount⟩
  rcases lex_spanned hLex with ⟨spans, hSpans⟩
  exact ⟨tokens, spans, hLex, of_decide_eq_true hCount, hSpans⟩

/- The end of a text covers nothing. -/
theorem Spells.start_eq_stop {t : Token}
    (h : Spells source t span)
    (hKind : t.kind = .eof) :
    span.start = span.stop := by
  rcases h.layout (by rw [hKind]; rfl) (by rw [hKind]; decide) with hText | ⟨hNewline, _⟩
  · have hLength := congrArg List.length hText
    have hStart := h.start_le
    have hStop := h.stop_le
    simp only [Span.text, length_take, length_drop, length_nil] at hLength
    omega
  · rw [hKind] at hNewline
    cases hNewline

/- An assignment behind a carriage return. -/
def veiledLine : String := "\rx = 1\n"

/- No token stands for the assignment. -/
theorem lex_drops_veiledLine :
    ∃ tokens, lex veiledLine = .ok tokens ∧
      Significant veiledLine.toList 1 ∧
      ∀ spans, List.Forall₂ (Spells veiledLine.toList) tokens spans →
        ∀ span ∈ spans, ¬ span.Has 1 := by
  have hLex : lex veiledLine = .ok [⟨.eof, "", 2⟩] := rfl
  have hText : veiledLine.toList = ['\r', 'x', ' ', '=', ' ', '1', '\n'] := by
    decide +kernel
  have hSignificant : Significant veiledLine.toList 1 := by
    rw [hText]
    refine ⟨⟨'x', rfl, rfl, by decide, fun hJoint => ?_⟩, ?_⟩
    · exact absurd hJoint.1 (by decide)
    · unfold InComment
      decide
  refine ⟨_, hLex, hSignificant, fun spans hSpans span hSpan hHas => ?_⟩
  rcases hSpans with _ | ⟨hSpells, hRest⟩
  cases hRest
  rw [mem_singleton] at hSpan
  subst hSpan
  have hEmpty := hSpells.start_eq_stop rfl
  exact absurd (hHas.1.trans_lt hHas.2) (by rw [hEmpty]; exact lt_irrefl _)

end Script

end Pep9
