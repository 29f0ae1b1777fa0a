import Mathlib.Data.List.DropRight
import Pep9.Proofs.Script.Scanning

/-
  Layout tokens. The columns of the open blocks are a stack
  that grows from column 0, and the tokens that open and close
  blocks are brackets around the lines of a text.

  Key theorems: `Lexer.indentTo_laid`, `Lexer.Moves.aligned`,
  `lex_bracketed`.
-/

namespace Pep9

open List

variable {lexeme : String} {source : String}

namespace Script

variable {kind : Kind} {s' : State} {before : List Char} {c : Char}

def countKind (kind : Kind) (tokens : List Token) : Nat :=
  tokens.countP fun t => t.kind = kind

theorem countKind_cons
    (kind : Kind)
    (t : Token)
    (tokens : List Token) :
    countKind kind (t :: tokens) = countKind kind tokens + if t.kind = kind then 1 else 0 := by
  simp [countKind, countP_cons]

theorem countKind_reverse
    (kind : Kind)
    (tokens : List Token) :
    countKind kind tokens.reverse = countKind kind tokens := countP_reverse ..

variable {tokens : List Token}

theorem countKind_concat {t : Token}
    (h : t.kind ≠ kind) :
    countKind kind (tokens ++ [t]) = countKind kind tokens := by
  simp [countKind, countP_append, h]

/-
  The tokens of a text end with the only end mark. Before it
  all blocks are closed that were opened, none of them before
  it was opened, and the last line is ended. The lines of the
  tokens do not decrease and are lines of the text.
-/
structure Bracketed (source : String) (tokens : List Token) : Prop where
  ending : ∃ front last, tokens = front ++ [last] ∧ last.kind = .eof ∧
        (∀ t ∈ front, t.kind ≠ .eof) ∧ (front ≠ [] →
          (front.rdropWhile fun t => t.kind = .dedent).getLast?.map Token.kind = some .newline)
  opened : ∀ before, before <+: tokens → countKind .dedent before ≤ countKind .indent before
  closed : countKind .dedent tokens = countKind .indent tokens
  ordered : tokens.Pairwise fun t u => t.line ≤ u.line
  lines : ∀ t ∈ tokens, 1 ≤ t.line ∧ t.line ≤ source.toList.count '\n' + 1

namespace Lexer

/- Tokens, the last first, that leave some blocks open. -/
inductive Nested : List Token → Nat → Prop where
  | nil : Nested [] 0
  | opens {t : Token} {tokens : List Token} {n : Nat} (hKind : t.kind = .indent)
      (hRest : Nested tokens n) : Nested (t :: tokens) (n + 1)
  | closes {t : Token} {tokens : List Token} {n : Nat} (hKind : t.kind = .dedent)
      (hRest : Nested tokens (n + 1)) : Nested (t :: tokens) n
  | other {t : Token} {tokens : List Token} {n : Nat} (hOpens : t.kind ≠ .indent)
      (hCloses : t.kind ≠ .dedent) (hEnds : t.kind ≠ .eof) (hRest : Nested tokens n) :
      Nested (t :: tokens) n

namespace Nested

variable {t : Token} {n : Nat}

variable (h : Nested tokens n)
include h

theorem count_eq :
    countKind .indent tokens = countKind .dedent tokens + n := by
  induction h with
  | nil => rfl
  | opens hKind _ ih | closes hKind _ ih =>
    rw [countKind_cons, countKind_cons, hKind, if_pos rfl, if_neg (by decide), ih]
    omega
  | other hOpens hCloses _ _ ih =>
    rw [countKind_cons, countKind_cons, if_neg hOpens, if_neg hCloses, ih]
    omega

/- Some blocks were open at each token. -/
theorem of_suffix {later : List Token}
    (hSuffix : later <:+ tokens) :
    ∃ k, Nested later k := by
  induction h with
  | nil =>
    cases suffix_nil.mp hSuffix
    exact ⟨0, .nil⟩
  | opens hKind hRest ih =>
    rcases suffix_cons_iff.mp hSuffix with rfl | hSuffix
    · exact ⟨_, .opens hKind hRest⟩
    · exact ih hSuffix
  | closes hKind hRest ih =>
    rcases suffix_cons_iff.mp hSuffix with rfl | hSuffix
    · exact ⟨_, .closes hKind hRest⟩
    · exact ih hSuffix
  | other hOpens hCloses hEnds hRest ih =>
    rcases suffix_cons_iff.mp hSuffix with rfl | hSuffix
    · exact ⟨_, .other hOpens hCloses hEnds hRest⟩
    · exact ih hSuffix

theorem ne_eof : ∀ t ∈ tokens, t.kind ≠ .eof := by
  induction h with
  | nil => nofun
  | opens hKind _ ih | closes hKind _ ih =>
    refine forall_mem_cons.mpr ⟨?_, ih⟩
    rw [hKind]
    nofun
  | other _ _ hEnds _ ih => exact forall_mem_cons.mpr ⟨hEnds, ih⟩

theorem spelled (hKind : t.kind.isSpelled = true) :
    Nested (t :: tokens) n := by
  refine .other ?_ ?_ ?_ h
  all_goals
    intro hEq
    rw [hEq] at hKind
    cases hKind

end Nested

/- Tokens, the last first, up to a line that is being read. -/
structure InOrder (tokens : List Token) (line : Nat) : Prop where
  ordered : tokens.Pairwise fun t u => u.line ≤ t.line
  lines : ∀ t ∈ tokens, 1 ≤ t.line ∧ t.line ≤ line

namespace InOrder

variable {line : Nat}

theorem cons
    (h : InOrder tokens line)
    (hLine : 1 ≤ line) :
    InOrder (⟨kind, lexeme, line⟩ :: tokens) line where
  ordered := by
    refine pairwise_cons.mpr ⟨fun t hT => ?_, h.ordered⟩
    exact (h.lines t hT).2
  lines := by
    refine forall_mem_cons.mpr ⟨⟨?_, Int.le_refl _⟩, h.lines⟩
    change (1 : Int) ≤ line
    exact_mod_cast hLine

theorem succ (h : InOrder tokens line) : InOrder tokens (line + 1) where
  ordered := h.ordered
  lines := by
    intro t hT
    rcases h.lines t hT with ⟨hLow, _⟩
    exact ⟨hLow, by push_cast; omega⟩

end InOrder

/-
  A stack of columns, the top first: strictly increasing from
  its bottom, which is column 0.
-/
structure Mounting (stack : List Nat) : Prop where
  increasing : stack.Pairwise fun upper lower => lower < upper
  bottom : stack.getLast? = some 0

/- The columns of the open blocks, down to that of the text. -/
def State.stack (s : State) : List Nat := s.indents ++ [0]

/-
  The stacks, one after another, when columns are taken off
  that are deeper than a given one.
-/
def unwinding (column : Nat) : List Nat → List (List Nat)
  | [] => [[]]
  | top :: rest => (top :: rest) :: if column < top then unwinding column rest else []

/-
  The stacks, one after another, when a line starts at a
  column: a deeper column is put on, and otherwise those that
  are deeper than the column are taken off.
-/
def settling (column : Nat) (stack : List Nat) : List (List Nat) :=
  if stack.headD 0 < column then
    [stack, column :: stack]
  else
    unwinding column stack

namespace Mounting

variable {column : Nat} {stack : List Nat}

theorem ground : Mounting [0] where
  increasing := pairwise_singleton _ 0
  bottom := rfl

theorem ne_nil (h : Mounting stack) : stack ≠ [] := by
  rintro rfl
  cases h.bottom

theorem push
    (h : Mounting stack)
    (hColumn : stack.headD 0 < column) :
    Mounting (column :: stack) := by
  rcases exists_cons_of_ne_nil h.ne_nil with ⟨_, _, rfl⟩
  refine ⟨pairwise_cons.mpr ⟨fun other hOther => ?_, h.increasing⟩, ?_⟩
  · rcases mem_cons.mp hOther with rfl | hOther
    · exact hColumn
    · exact ((pairwise_cons.mp h.increasing).1 other hOther).trans hColumn
  · rw [getLast?_cons_cons]
    exact h.bottom

/- Only a column above 0 is deeper than another, so it is not the last. -/
theorem pop {top : Nat} {rest : List Nat}
    (h : Mounting (top :: rest))
    (hColumn : column < top) :
    Mounting rest := by
  refine ⟨(pairwise_cons.mp h.increasing).2, ?_⟩
  have hBottom := h.bottom
  cases rest with
  | nil =>
    cases hBottom
    exact absurd hColumn (Nat.not_lt_zero column)
  | cons =>
    rw [getLast?_cons_cons] at hBottom
    exact hBottom

theorem unwinding (h : Mounting stack) :
    ∀ left ∈ unwinding column stack, Mounting left := by
  induction stack with
  | nil => exact absurd rfl h.ne_nil
  | cons _ _ ih =>
    rw [Lexer.unwinding]
    refine forall_mem_cons.mpr ⟨h, ?_⟩
    split
    · next hColumn => exact ih (h.pop hColumn)
    · nofun

theorem settling (h : Mounting stack) :
    ∀ left ∈ settling column stack, Mounting left := by
  unfold Lexer.settling
  split
  · next hColumn =>
    intro _ hLeft
    rcases mem_pair.mp hLeft with rfl | rfl
    · exact h
    · exact h.push hColumn
  · exact h.unwinding

end Mounting

------------------------------------------------------------
-- States
------------------------------------------------------------

/-
  What the lexer keeps: as many blocks are open as columns are
  on its stack, and the tokens are in the order of their lines.
-/
structure Laid (emitted : List Token) (indents : List Nat) (line : Nat) : Prop where
  nested : Nested emitted indents.length
  inOrder : InOrder emitted line
  mounting : Mounting (indents ++ [0])

namespace Laid

variable {emitted : List Token} {indents : List Nat} {line : Nat}

variable (h : Laid emitted indents line)
include h

/- A token that neither opens nor closes a block. -/
theorem emit
    (hLine : 1 ≤ line)
    (hKind : kind = .newline ∨ kind = .string ∨ kind.isSpelled = true) :
    Laid (⟨kind, lexeme, line⟩ :: emitted) indents line where
  nested := by
    rcases hKind with rfl | rfl | hKind
    · exact .other nofun nofun nofun h.nested
    · exact .other nofun nofun nofun h.nested
    · exact h.nested.spelled hKind
  inOrder := h.inOrder.cons hLine
  mounting := h.mounting

theorem succ : Laid emitted indents (line + 1) where
  nested := h.nested
  inOrder := h.inOrder.succ
  mounting := h.mounting

end Laid

variable {s : State} {line : Nat}

theorem Flushes.laid {t : State}
    (h : Flushes s t)
    (hLine : 1 ≤ s.line)
    (hLaid : Laid s.emitted s.indents s.line) :
    Laid t.emitted t.indents t.line ∧ t.line = s.line := by
  cases h with
  | rest => exact ⟨hLaid, rfl⟩
  | token _ hKind => exact ⟨hLaid.emit hLine (.inr (.inr hKind)), rfl⟩

/- Each block that is closed takes its column from the stack. -/
theorem dedent_laid {column : Nat} {indents : List Nat}
    (hLine : 1 ≤ s.line)
    (hLaid : Laid s.emitted indents s.line)
    (h : State.dedent column indents s = .ok s') :
    Laid s'.emitted s'.indents s'.line ∧ s'.line = s.line ∧
      (unwinding column (indents ++ [0])).getLast? = some s'.stack := by
  induction indents generalizing s with
  | nil =>
    unfold State.dedent at h
    split at h
    · cases h
      exact ⟨hLaid, rfl, rfl⟩
    · cases h
  | cons top rest ih =>
    unfold State.dedent at h
    rw [cons_append, unwinding]
    split at h
    · next hColumn =>
      have hLast : ((top :: (rest ++ [0])) :: unwinding column (rest ++ [0])).getLast? =
            (unwinding column (rest ++ [0])).getLast? := by
        cases rest <;> exact getLast?_cons_cons
      rw [if_pos hColumn, hLast]
      refine ih (s := s.emit .dedent "") hLine ?_ h
      exact ⟨.closes rfl hLaid.nested, hLaid.inOrder.cons hLine, hLaid.mounting.pop hColumn⟩
    · next hColumn =>
      split at h
      · cases h
        rw [if_neg hColumn]
        exact ⟨hLaid, rfl, rfl⟩
      · cases h

theorem headD_stack (s : State) : s.stack.headD 0 = s.indents.headD 0 := by
  unfold State.stack
  cases s.indents <;> rfl

/- The column of a line settles the stack. -/
theorem indentTo_laid {column : Nat}
    (hLine : 1 ≤ s.line)
    (hLaid : Laid s.emitted s.indents s.line)
    (h : s.indentTo column = .ok s') :
    Laid s'.emitted s'.indents s'.line ∧ s'.line = s.line ∧
      (settling column s.stack).getLast? = some s'.stack := by
  unfold State.indentTo at h
  unfold settling
  rw [headD_stack]
  split at h
  · next hColumn =>
    cases h
    rw [if_pos hColumn]
    refine ⟨⟨.opens rfl hLaid.nested, hLaid.inOrder.cons hLine, hLaid.mounting.push ?_⟩, rfl, rfl⟩
    exact (headD_stack s).trans_lt hColumn
  · next hColumn =>
    rw [if_neg hColumn]
    exact dedent_laid hLine hLaid h

/- The quotation mark of a string under way, and its line. -/
def Mode.quotation? : Mode → Option (Char × Nat)
  | string quote line _ | escape quote line _ => some (quote, line)
  | _ => none

/-
  What holds after some characters. No string literal goes on
  to the next line.
-/
structure Aligned (before : List Char) (s : State) : Prop where
  line : s.line = before.count '\n' + 1
  quoted : ∀ quote line, s.mode.quotation? = some (quote, line) →
      isQuote quote = true ∧ line = s.line
  laid : Laid s.emitted s.indents s.line

theorem Aligned.start : Aligned [] State.start where
  line := rfl
  quoted := nofun
  laid := ⟨.nil, ⟨.nil, nofun⟩, .ground⟩

theorem Aligned.one_le (h : Aligned before s) : 1 ≤ s.line := by
  rw [h.line]
  omega

theorem count_append
    (hChar : c ≠ '\n')
    (hLine : line = before.count '\n' + 1) :
    line = (before ++ [c]).count '\n' + 1 := by
  rw [List.count_append, count_singleton, if_neg (by simpa using hChar), Nat.add_zero]
  exact hLine

theorem count_newline (hLine : line = before.count '\n' + 1) :
    line + 1 = (before ++ ['\n']).count '\n' + 1 := by
  rw [List.count_append, count_singleton_self, hLine]

/- A token that starts with a character is on its line. -/
theorem Enters.aligned {t : State}
    (h : Enters t c s')
    (hLine : t.line = before.count '\n' + 1)
    (hLaid : Laid t.emitted t.indents t.line) :
    Aligned (before ++ [c]) s' := by
  have hOne : 1 ≤ t.line := by omega
  cases h with
  | gap hChar =>
    refine ⟨count_append ?_ hLine, nofun, hLaid⟩
    rintro rfl
    exact absurd hChar (by decide)
  | comment => exact ⟨count_append (by decide) hLine, nofun, hLaid⟩
  | newline => exact ⟨count_newline hLine, nofun, (hLaid.emit hOne (.inl rfl)).succ⟩
  | fold => exact ⟨count_newline hLine, nofun, hLaid.succ⟩
  | word hChar | number hChar =>
    refine ⟨count_append ?_ hLine, nofun, hLaid⟩
    rintro rfl
    exact absurd hChar (by decide)
  | string hChar =>
    refine ⟨count_append ?_ hLine, ?_, hLaid⟩
    · rintro rfl
      exact absurd hChar (by decide)
    · rintro _ _ ⟨⟩
      exact ⟨hChar, rfl⟩
  | continuation => exact ⟨count_append (by decide) hLine, nofun, hLaid⟩
  | operator hKind =>
    refine ⟨count_append ?_ hLine, nofun, hLaid⟩
    rintro rfl
    cases hKind
  | lone hKind =>
    refine ⟨count_append ?_ hLine, nofun, hLaid.emit hOne (.inr (.inr (lone_isSpelled hKind).1))⟩
    rintro rfl
    cases hKind

/- A step counts lines, and leaves no string on two. -/
theorem Moves.aligned
    (h : Moves s c s')
    (hS : Aligned before s) :
    Aligned (before ++ [c]) s' := by
  have hNext := count_newline hS.line
  cases h with
  | margin _ hChar =>
    refine ⟨count_append ?_ hS.line, nofun, hS.laid⟩
    rintro rfl
    exact absurd hChar (by decide)
  | emptyLine => exact ⟨hNext, nofun, hS.laid.succ⟩
  | blankStarts _ hChar =>
    refine ⟨count_append ?_ hS.line, nofun, hS.laid⟩
    rcases hChar with rfl | rfl | rfl
    all_goals decide
  | lineStarts _ _ _ hIndent hEnters =>
    rcases indentTo_laid hS.one_le hS.laid hIndent with ⟨hLaid, hLine, _⟩
    exact hEnters.aligned (hLine.trans hS.line) hLaid
  | blankGoes _ hChar => exact ⟨count_append hChar hS.line, hS.quoted, hS.laid⟩
  | blankEnds => exact ⟨hNext, nofun, hS.laid.succ⟩
  | commentGoes _ hChar => exact ⟨count_append hChar hS.line, hS.quoted, hS.laid⟩
  | wordGoes _ hChar | numberGoes _ hChar =>
    refine ⟨count_append ?_ hS.line, nofun, hS.laid⟩
    rintro rfl
    exact absurd hChar (by decide)
  | stringEnds hMode =>
    rcases hS.quoted c _ (by rw [hMode]; rfl) with ⟨hQuote, rfl⟩
    refine ⟨count_append ?_ hS.line, nofun, hS.laid.emit hS.one_le (.inr (.inl rfl))⟩
    rintro rfl
    exact absurd hQuote (by decide)
  | stringGoes hMode _ hLine _ =>
    refine ⟨count_append hLine hS.line, ?_, hS.laid⟩
    rintro _ _ ⟨⟩
    exact hS.quoted _ _ (by rw [hMode]; rfl)
  | escapeStarts hMode _ =>
    refine ⟨count_append (by decide) hS.line, ?_, hS.laid⟩
    rintro _ _ ⟨⟩
    exact hS.quoted _ _ (by rw [hMode]; rfl)
  | escapeEnds hMode hValue =>
    refine ⟨count_append ?_ hS.line, ?_, hS.laid⟩
    · rintro rfl
      cases hValue
    · rintro _ _ ⟨⟩
      exact hS.quoted _ _ (by rw [hMode]; rfl)
  | joined => exact ⟨hNext, nofun, hS.laid.succ⟩
  | long _ hKind =>
    exact ⟨count_append (by decide) hS.line, nofun,
      hS.laid.emit hS.one_le (.inr (.inr (long_isSpelled hKind).1))⟩
  | ends _ hFlushes hEnters =>
    rcases hFlushes.laid hS.one_le hS.laid with ⟨hLaid, hLine⟩
    exact hEnters.aligned (hLine.trans hS.line) hLaid

theorem foldlM_step_aligned (h : before.foldlM State.step State.start = .ok s) :
    Aligned before s :=
  foldlM_step_induction .start (fun _ _ _ _ _ hBefore hMoves => hMoves.aligned hBefore) h

------------------------------------------------------------
-- The End of a Text
------------------------------------------------------------

theorem Nested.close {n k : Nat} {t : Token}
    (hKind : t.kind = .dedent)
    (h : Nested tokens (n + k)) :
    Nested (replicate n t ++ tokens) k := by
  induction n generalizing k with
  | zero =>
    rw [Nat.zero_add] at h
    exact h
  | succ _ ih =>
    rw [replicate_succ, cons_append]
    refine .closes hKind (ih ?_)
    rw [← Nat.add_assoc, Nat.add_right_comm]
    exact h

theorem InOrder.close
    (h : InOrder tokens line)
    (hLine : 1 ≤ line)
    (n : Nat) :
    InOrder (replicate n ⟨kind, lexeme, line⟩ ++ tokens) line := by
  induction n with
  | zero => exact h
  | succ _ ih =>
    rw [replicate_succ, cons_append]
    exact ih.cons hLine

section Close

theorem lastNewline_laid
    (hLine : 1 ≤ s.line)
    (h : Laid s.emitted s.indents s.line) :
    Laid (lastNewline s ++ s.emitted) s.indents s.line := by
  unfold lastNewline
  split
  · exact h
  · split
    · exact h
    · exact h.emit hLine (.inl rfl)

/- Where there are tokens, the last line is ended. -/
theorem lastNewline_ends (hSome : s.emitted ≠ []) :
    ∃ last rest, lastNewline s ++ s.emitted = last :: rest ∧ last.kind = .newline := by
  rcases exists_cons_of_ne_nil hSome with ⟨t, rest, hTokens⟩
  unfold lastNewline
  rw [hTokens]
  dsimp only
  split
  · next hKind => exact ⟨t, rest, rfl, hKind⟩
  · exact ⟨_, _, rfl, rfl⟩

section

variable (hLine : 1 ≤ s.line) (h : Laid s.emitted s.indents s.line)
include hLine h

theorem closedTokens_nested :
    Nested (closedTokens s) 0 := (lastNewline_laid hLine h).nested.close rfl

theorem closedTokens_inOrder :
    InOrder (closedTokens s) s.line := (lastNewline_laid hLine h).inOrder.close hLine _

end

/- The last token but those that close blocks ends a line. -/
theorem closedTokens_ends
    (h : Laid s.emitted s.indents s.line)
    (hSome : closedTokens s ≠ []) :
    ((closedTokens s).reverse.rdropWhile fun t => t.kind = .dedent).getLast?.map Token.kind =
      some .newline := by
  by_cases hEmitted : s.emitted = []
  · -- No block is open where no token is.
    have hNested := h.nested
    rw [hEmitted] at hNested
    have hLength : s.indents.length = 0 := (hNested.count_eq.trans (Nat.zero_add _)).symm
    refine absurd ?_ hSome
    unfold closedTokens lastNewline
    rw [hLength, hEmitted]
    rfl
  · rcases lastNewline_ends hEmitted with ⟨_, _, hLast, hKind⟩
    unfold rdropWhile closedTokens
    rw [reverse_reverse, hLast, dropWhile_append_of_pos,
      dropWhile_cons_of_neg, getLast?_reverse]
    · exact congrArg some hKind
    · simp [hKind]
    · intro _ hT
      rw [eq_of_mem_replicate hT]
      rfl

end Close

/- The tokens of a text that has been read to its end. -/
theorem close_bracketed
    (hLine : s.line = source.toList.count '\n' + 1)
    (h : Laid s.emitted s.indents s.line) :
    Bracketed source s.close := by
  have hOne : 1 ≤ s.line := by omega
  have hNested := closedTokens_nested hOne h
  have hOrder : InOrder (⟨.eof, "", s.line⟩ :: closedTokens s) s.line :=
    (closedTokens_inOrder hOne h).cons hOne
  have hCount := hNested.count_eq
  have hEven : countKind .dedent s.close = countKind .indent s.close := by
    rw [close_eq, countKind_concat (by simp), countKind_concat (by simp),
      countKind_reverse, countKind_reverse, hCount, Nat.add_zero]
  rw [close_eq] at hEven ⊢
  refine ⟨⟨_, _, rfl, rfl, ?_, ?_⟩, ?_, hEven, ?_, ?_⟩
  · intro t hT
    exact hNested.ne_eof t (mem_reverse.mp hT)
  · intro hSome
    exact closedTokens_ends h fun hNone => hSome (by rw [hNone]; rfl)
  · intro _ hBefore
    rcases prefix_concat_iff.mp hBefore with rfl | hBefore
    · exact hEven.le
    · have hSuffix := reverse_suffix.mpr hBefore
      rw [reverse_reverse] at hSuffix
      rcases hNested.of_suffix hSuffix with ⟨_, hK⟩
      have hPrefix := hK.count_eq
      rw [countKind_reverse, countKind_reverse] at hPrefix
      omega
  · rw [← reverse_cons, pairwise_reverse]
    exact hOrder.ordered
  · rw [← reverse_cons]
    intro t hT
    rcases hOrder.lines t (mem_reverse.mp hT) with ⟨hLow, hHigh⟩
    rw [hLine] at hHigh
    exact ⟨hLow, by exact_mod_cast hHigh⟩

end Lexer

open Lexer

/- The tokens of a text. -/
theorem Bracketed.of_lex (h : lex source = .ok tokens) :
    Bracketed source tokens := by
  rcases run_eq_ok.mp h with ⟨_, _, hRead, hFlush, rfl⟩
  have hLast := foldlM_step_aligned hRead
  rcases (flush_flushes hFlush).laid hLast.one_le hLast.laid with ⟨hLaid, hLine⟩
  exact close_bracketed (hLine.trans hLast.line) hLaid

/-
  The tokens of every text that can be cut into tokens are
  bracketed. In every text, as far as it is read, the stack of
  columns increases from column 0, and so does every stack that
  it goes through when the next line starts at any column.
-/
theorem lex_bracketed (source : String) :
    (∀ tokens, lex source = .ok tokens → Bracketed source tokens) ∧
      ∀ before s, before <+: source.toList →
        before.foldlM Lexer.State.step Lexer.State.start = .ok s →
          Mounting s.stack ∧
          ∀ column,
            (∀ stack ∈ settling column s.stack, Mounting stack) ∧
            ∀ s', s.indentTo column = .ok s' →
              (settling column s.stack).getLast? = some s'.stack := by
  refine ⟨fun _ => .of_lex, fun before s _ h => ?_⟩
  have hS := foldlM_step_aligned h
  refine ⟨hS.laid.mounting, fun column => ⟨?_, fun s' hIndent => ?_⟩⟩
  · exact hS.laid.mounting.settling
  · exact (indentTo_laid hS.one_le hS.laid hIndent).2.2

/- Two blocks, and a bracket that closes nothing. -/
def steps : String := "if a:\n\tif b:\n\t  c = (1,\n2)\n  # d\n\ne \\\n= f)"

/- Behind the start of the third line both blocks are open. -/
theorem lex_bracketed_steps :
    ∃ tokens s, lex steps = .ok tokens ∧ countKind .indent tokens = 2 ∧
      Bracketed steps tokens ∧ steps.toList.take 18 <+: steps.toList ∧
      (steps.toList.take 18).foldlM Lexer.State.step Lexer.State.start = .ok s ∧
      s.stack = [10, 8, 0] ∧ Mounting s.stack ∧ (∀ stack ∈ settling 9 s.stack, Mounting stack) ∧
      settling 9 s.stack = [[10, 8, 0], [8, 0]] := by
  have hTokens : (lex steps).toOption.any (fun tokens =>
        decide (countKind .indent tokens = 2)) = true := by
    decide +kernel
  have hState : ((steps.toList.take 18).foldlM Lexer.State.step
        Lexer.State.start).toOption.any (fun s =>
          decide (s.stack = [10, 8, 0])) = true := by
    decide +kernel
  have hBefore : steps.toList.take 18 <+: steps.toList := take_prefix 18 _
  rcases Result.any_eq_true.mp hTokens with ⟨tokens, hLex, hCount⟩
  rcases Result.any_eq_true.mp hState with ⟨s, hRead, hStack⟩
  rcases lex_bracketed steps with ⟨hText, hStep⟩
  rcases hStep _ s hBefore hRead with ⟨hMounting, hColumns⟩
  refine ⟨tokens, s, hLex, of_decide_eq_true hCount, hText tokens hLex,
    hBefore, hRead, of_decide_eq_true hStack, hMounting, (hColumns 9).1, ?_⟩
  rw [of_decide_eq_true hStack]
  rfl

end Script

end Pep9
