import Pep9.Proofs.Script.Scanning
import Pep9.Script.Stmt

/-
  Identifiers. The lexer makes identifier tokens of
  identifiers only, none of which is a keyword.

  Key theorem: `lex_wellNamed`.
-/

namespace Pep9

open List

namespace Script

variable {c : Char} {tokens : List Token} {kind : Kind} {s s' : State} {backwards : List Char}

/-
  A name of the language: a letter or an underscore, then
  letters, digits and underscores. Keywords are no names.
-/
structure IsIdentifier (name : String) : Prop where
  first : ∃ c rest, name.toList = c :: rest ∧ Lexer.isWordStart c = true
  chars : ∀ c ∈ name.toList, Lexer.isWordChar c = true
  notKeyword : Kind.keyword? name = none

theorem IsIdentifier.ne_nil {name : String}
    (h : IsIdentifier name) :
    name.toList ≠ [] := by
  rcases h.first with ⟨c, rest, hEq, _⟩
  rw [hEq]
  exact cons_ne_nil c rest

/- Tokens whose identifiers are identifiers. -/
def WellNamedTokens (tokens : List Token) : Prop :=
  ∀ t ∈ tokens, t.kind = .identifier → IsIdentifier t.lexeme

/- Letters, by their codes. -/
theorem isUpper_iff : c.isUpper = true ↔ 65 ≤ c.toNat ∧ c.toNat ≤ 90 :=
  decide_eq_true_iff

theorem isLower_iff : c.isLower = true ↔ 97 ≤ c.toNat ∧ c.toNat ≤ 122 := by
  change (decide _ && decide _) = true ↔ _
  rw [Bool.and_eq_true, decide_eq_true_iff, decide_eq_true_iff]
  rfl

theorem isWordStart_iff :
    Lexer.isWordStart c = true ↔
      c.toNat = 95 ∨ 65 ≤ c.toNat ∧ c.toNat ≤ 90 ∨ 97 ≤ c.toNat ∧ c.toNat ≤ 122 := by
  change (c == '_' || (c.isUpper || c.isLower)) = true ↔ _
  rw [Bool.or_eq_true, Bool.or_eq_true, beq_iff_eq, isUpper_iff, isLower_iff, ← Char.toNat_inj]
  rfl

theorem isWordChar_iff :
    Lexer.isWordChar c = true ↔
      (c.toNat = 95 ∨ 65 ≤ c.toNat ∧ c.toNat ≤ 90 ∨ 97 ≤ c.toNat ∧ c.toNat ≤ 122) ∨
        48 ≤ c.toNat ∧ c.toNat ≤ 57 := by
  rw [Lexer.isWordChar, Bool.or_eq_true, isWordStart_iff, Char.isDigit_iff_toNat]
  rfl

theorem not_isDigit_of_isWordStart (h : Lexer.isWordStart c = true) :
    c.isDigit = false := by
  have hStart := isWordStart_iff.mp h
  refine Bool.eq_false_iff.mpr fun hDigit => ?_
  have hEnds : '0'.toNat = 48 ∧ '9'.toNat = 57 := ⟨rfl, rfl⟩
  have hCode := Char.isDigit_iff_toNat.mp hDigit
  omega

/- A word starts with a character that a word may hold. -/
theorem isWordChar_of_isWordStart (h : Lexer.isWordStart c = true) :
    Lexer.isWordChar c = true := by
  simp [Lexer.isWordChar, h]

namespace Lexer

/- A word under way, which is kept backwards. -/
def WordUnderWay (backwards : List Char) : Prop :=
  (∃ c rest, backwards.reverse = c :: rest ∧ isWordStart c = true) ∧
    ∀ c ∈ backwards, isWordChar c = true

/- A word under way in some mode. -/
def Mode.WellNamed : Mode → Prop
  | .word backwards => WordUnderWay backwards
  | _ => True

/-
  What the lexer keeps: its identifiers are identifiers, and
  the word it is in the middle of can become one.
-/
structure State.WellNamed (s : State) : Prop where
  emitted : WellNamedTokens s.emitted
  mode : s.mode.WellNamed

theorem wellNamedTokens_cons {t : Token}
    (hKind : t.kind ≠ .identifier)
    (hTokens : WellNamedTokens tokens) :
    WellNamedTokens (t :: tokens) :=
  forall_mem_cons.mpr ⟨fun hIs => absurd hIs hKind, hTokens⟩

/- A longer word is still a word. -/
theorem wordUnderWay_cons
    (hWord : WordUnderWay backwards)
    (hChar : isWordChar c = true) :
    WordUnderWay (c :: backwards) := by
  rcases hWord with ⟨⟨d, rest, hReverse, hStart⟩, hChars⟩
  refine ⟨⟨d, rest ++ [c], ?_, hStart⟩, forall_mem_cons.mpr ⟨hChar, hChars⟩⟩
  rw [reverse_cons, hReverse, cons_append]

/- The token under way is an identifier only if it is a word. -/
theorem Flushes.wellNamed
    (h : Flushes s s')
    (hState : s.WellNamed) :
    WellNamedTokens s'.emitted := by
  rcases hState with ⟨hTokens, hMode⟩
  cases h with
  | rest => exact hTokens
  | token _ _ hName =>
    refine forall_mem_cons.mpr ⟨fun hIs => ?_, hTokens⟩
    rcases hName hIs with ⟨hWord, hKeyword⟩
    rw [hWord] at hMode
    rcases hMode with ⟨⟨c, rest, hText, hStart⟩, hChars⟩
    rw [reverse_reverse] at hText
    refine ⟨⟨c, rest, String.toList_ofList.trans hText, hStart⟩, fun d hMem => ?_, hKeyword⟩
    rw [String.toList_ofList] at hMem
    exact hChars d (mem_reverse.mpr hMem)

/- A character between two tokens starts a word or none. -/
theorem Enters.wellNamed
    (h : Enters s c s')
    (hTokens : WellNamedTokens s.emitted) :
    s'.WellNamed := by
  cases h with
  | word hStart =>
    refine ⟨hTokens, ⟨c, [], rfl, hStart⟩, forall_mem_singleton.mpr ?_⟩
    exact isWordChar_of_isWordStart hStart
  | newline => exact ⟨wellNamedTokens_cons nofun hTokens, trivial⟩
  | lone hKind => exact ⟨wellNamedTokens_cons (lone_isSpelled hKind).2 hTokens, trivial⟩
  | _ => exact ⟨hTokens, trivial⟩

theorem Moves.wellNamed
    (h : Moves s c s')
    (hState : s.WellNamed) :
    s'.WellNamed := by
  rcases hState with ⟨hTokens, hMode⟩
  cases h with
  | lineStarts _ _ _ hIndent hEnters =>
    refine hEnters.wellNamed (indentTo_induction hTokens (fun _ _ hKind => ?_) hIndent)
    rcases hKind with rfl | rfl
    · exact wellNamedTokens_cons nofun
    · exact wellNamedTokens_cons nofun
  | wordGoes hWord hChar =>
    rw [hWord] at hMode
    exact ⟨hTokens, wordUnderWay_cons hMode hChar⟩
  | stringEnds => exact ⟨wellNamedTokens_cons nofun hTokens, trivial⟩
  | long _ hKind => exact ⟨wellNamedTokens_cons (long_isSpelled hKind).2 hTokens, trivial⟩
  | ends _ hFlushes hEnters => exact hEnters.wellNamed (hFlushes.wellNamed ⟨hTokens, hMode⟩)
  | blankGoes | commentGoes => exact ⟨hTokens, hMode⟩
  | _ => exact ⟨hTokens, trivial⟩

theorem closedTokens_wellNamed (hTokens : WellNamedTokens s.emitted) :
    WellNamedTokens (closedTokens s) := by
  refine forall_mem_append.mpr ⟨?_, forall_mem_append.mpr ⟨?_, hTokens⟩⟩
  · intro _ hMem hKind
    rw [eq_of_mem_replicate hMem] at hKind
    cases hKind
  · unfold lastNewline
    split
    · nofun
    · split
      · nofun
      · exact wellNamedTokens_cons nofun nofun

end Lexer

/- The identifiers among the tokens of a text are identifiers. -/
theorem lex_wellNamed {source : String}
    (h : lex source = .ok tokens) :
    WellNamedTokens tokens := by
  rcases Lexer.run_eq_ok.mp h with ⟨last, flushed, hLast, hFlush, rfl⟩
  have hState : last.WellNamed := by
    refine Lexer.foldlM_step_induction (P := fun _ s => s.WellNamed) ⟨nofun, trivial⟩ ?_ hLast
    exact fun _ _ _ _ _ hBefore hMoves => hMoves.wellNamed hBefore
  have hTokens := Lexer.closedTokens_wellNamed ((Lexer.flush_flushes hFlush).wellNamed hState)
  rw [Lexer.close_eq]
  refine forall_mem_append.mpr ⟨fun t hMem => hTokens t (mem_reverse.mp hMem), ?_⟩
  exact forall_mem_singleton.mpr nofun

end Script

end Pep9
