import Pep9.Proofs.Script.Acceptance

/-
  The parser accepts exactly the scripts of its grammar, and
  returns the one tree that their tokens derive.

  Key theorems: `Grammar.Simple.accepted`,
  `Grammar.Clause.Derives.accepted`,
  `Grammar.Program.accepted`, `parse_exact`.
-/

namespace Pep9

open List Result

variable {closed : Bool} {colon dedent equals param sign : Token} {kind : Kind}
  {op : Augment} {params : List String}

namespace Script

variable {place : Place} {places : List Place} {start word close : Token}
  {function : String} {seen : List String} {stmt : Stmt}
  {body stmts : List Stmt} {line : Int} {ts : List Token}

namespace Parser

open Grammar

variable {tokens rest middle : List Token} {e : Expr}

theorem expect_cons {token : Token}
    (h : token.kind = kind) :
    expect kind (token :: rest) = .ok ⟨token, rest, Nat.lt_succ_self _⟩ := by
  unfold expect
  exact if_pos h

theorem peek_cons
    (token : Token)
    (rest : List Token) :
    peek (token :: rest) = token := rfl

theorem assignments_last
    (hEquals : equals.kind = .assign)
    (h : outcome (expression tokens) = .ok (e, rest))
    (hEnd : (peek rest).kind ≠ .assign) :
    outcome (assignments (equals :: tokens)) = .ok (([], e), rest) := by
  rcases outcome_eq_ok.mp h with ⟨_, hRead, rfl, rfl⟩
  rw [assignments]
  simp only [expect_cons hEquals, ok_bind, hRead, if_neg hEnd]
  rfl

theorem assignments_more
    (hEquals : equals.kind = .assign)
    (h : outcome (expression tokens) = .ok (place.toExpr, middle))
    (hNext : (peek middle).kind = .assign)
    (hMore : outcome (assignments middle) = .ok ((places, e), rest)) :
    outcome (assignments (equals :: tokens)) = .ok ((place :: places, e), rest) := by
  rcases outcome_eq_ok.mp h with ⟨p, hRead, hValue, rfl⟩
  rcases outcome_eq_ok.mp hMore with ⟨q, hAssigned, hPlaces, rfl⟩
  have hPlace : p.value.place? = some place := Expr.place?_eq_some.mpr hValue
  rw [assignments]
  simp only [expect_cons hEquals, ok_bind, hRead, if_pos hNext, hPlace, hAssigned]
  change Except.ok ((place :: q.value.1, q.value.2), q.rest) = _
  rw [hPlaces]

/- The tokens behind a statement on one line. -/
abbrev Ends (rest : List Token) : Prop :=
  (peek rest).kind = .newline ∨ (peek rest).kind = .eof

theorem Ends.tightness_eq (h : Ends rest) : tightness (peek rest).kind = 0 := by
  rcases h with h | h <;> rw [h] <;> rfl

theorem Ends.kind_ne
    (h : Ends rest)
    (hNewline : kind ≠ .newline)
    (hEof : kind ≠ .eof) :
    (peek rest).kind ≠ kind := by
  rcases h with h | h <;> rw [h] <;> exact Ne.symm ‹_›

theorem afterExpression_stop (h : Ends rest) :
    outcomeOn (afterExpression start e rest) =
      .ok (.expr start.line e, rest) := by
  unfold afterExpression
  rcases h with h | h <;> simp only [h] <;> rfl

theorem afterExpression_assign
    (hNext : (peek tokens).kind = .assign)
    (h : outcome (assignments tokens) = .ok ((places, e), rest)) :
    outcomeOn (afterExpression start place.toExpr tokens) =
      .ok (.assign start.line place places e, rest) := by
  rcases outcome_eq_ok.mp h with ⟨p, hRead, hPlaces, rfl⟩
  have hPlace : place.toExpr.place? = some place := Expr.place?_eq_some.mpr rfl
  unfold afterExpression
  simp only [hNext, hRead, ok_bind, hPlace]
  change Except.ok (Stmt.assign start.line place p.value.1 p.value.2, p.rest) = _
  rw [hPlaces]

theorem augmentation_eq
    (start : Token)
    (place : Place)
    (hSign : sign.kind = op.kind)
    (h : outcome (expression tokens) = .ok (e, rest)) :
    outcome (augmentation op op.kind start place.toExpr
      (sign :: tokens)) = .ok (.augment start.line place op e, rest) := by
  rcases outcome_eq_ok.mp h with ⟨_, hRead, rfl, rfl⟩
  have hPlace : place.toExpr.place? = some place := Expr.place?_eq_some.mpr rfl
  unfold augmentation
  simp only [expect_cons hSign, ok_bind, hPlace, hRead]
  rfl

theorem afterExpression_augment
    (hSign : sign.kind = op.kind)
    (h : outcome (expression tokens) = .ok (e, rest)) :
    outcomeOn (afterExpression start place.toExpr (sign :: tokens)) =
      .ok (.augment start.line place op e, rest) := by
  rcases outcome_eq_ok.mp (augmentation_eq start place hSign h) with ⟨p, hRead, hValue, rfl⟩
  unfold afterExpression
  cases op with
  | add | sub =>
    simp only [peek_cons, hSign, Augment.kind] at hRead ⊢
    rw [hRead]
    exact congrArg (fun s => Except.ok (s, p.rest)) hValue

theorem simple_word {make : Int → Stmt}
    (h : (word.kind = .kwPass ∧ make = .pass) ∨
        (word.kind = .kwBreak ∧ make = .breakLoop) ∨
        (word.kind = .kwContinue ∧ make = .continueLoop)) :
    outcome (simple (word :: rest)) = .ok (make word.line, rest) := by
  unfold simple
  rcases h with ⟨hWord, rfl⟩ | ⟨hWord, rfl⟩ | ⟨hWord, rfl⟩ <;>
  · simp only [peek_cons, hWord, expect_cons hWord]
    rfl

theorem simple_return
    (hWord : word.kind = .kwReturn)
    (hEnds : Ends rest) :
    outcome (simple (word :: rest)) = .ok (.ret word.line none, rest) := by
  unfold simple
  simp only [peek_cons, hWord, expect_cons hWord, ok_bind, if_pos hEnds]
  rfl

theorem simple_returnValue
    (hWord : word.kind = .kwReturn)
    (hOpens : 0 < opens (peek tokens).kind)
    (h : outcome (expression tokens) = .ok (e, rest)) :
    outcome (simple (word :: tokens)) =
      .ok (.ret word.line (some e), rest) := by
  rcases outcome_eq_ok.mp h with ⟨_, hRead, rfl, rfl⟩
  have hNot : ¬((peek tokens).kind = .newline ∨ (peek tokens).kind = .eof) := by
    rintro (hKind | hKind) <;> rw [hKind] at hOpens <;>
      exact absurd hOpens (by decide)
  unfold simple
  simp only [peek_cons, hWord, expect_cons hWord, ok_bind, if_neg hNot, hRead]
  rfl

theorem simple_expression
    (h : outcome (expression tokens) = .ok (e, middle))
    (hOpens : 0 < opens (peek tokens).kind) :
    outcome (simple tokens) =
      outcomeOn (afterExpression (peek tokens) e middle) := by
  rcases outcome_eq_ok.mp h with ⟨p, hRead, rfl, rfl⟩
  unfold simple
  dsimp only
  split
  case h_5 =>
    rw [hRead, ok_bind]
    cases afterExpression (peek tokens) p.value p.rest with
    | error | ok => rfl
  all_goals next hKind =>
    rw [hKind] at hOpens
    exact absurd hOpens (by decide)

theorem parameters_none (hClose : close.kind = .rightParen) :
    outcome (parameters function seen (close :: rest)) = .ok ([], rest) := by
  rw [parameters]
  simp only [peek_cons, hClose, if_true, expect_cons hClose]
  rfl

theorem parameters_last
    (hParam : param.kind = .identifier)
    (hNew : param.lexeme ∉ seen)
    (hClose : close.kind = .rightParen) :
    outcome (parameters function seen (param :: close :: rest)) = .ok ([param.lexeme], rest) := by
  rw [parameters]
  simp only [peek_cons, hParam, hClose, reduceCtorEq, if_false, if_neg hNew,
    expect_cons hParam, expect_cons hClose, ok_bind]
  rfl

theorem parameters_more {others : List String} {comma : Token}
    (hParam : param.kind = .identifier)
    (hNew : param.lexeme ∉ seen)
    (hComma : comma.kind = .comma)
    (h : outcome (parameters function (param.lexeme :: seen) tokens) = .ok (others, rest)) :
    outcome (parameters function seen (param :: comma :: tokens)) =
      .ok (param.lexeme :: others, rest) := by
  rcases outcome_eq_ok.mp h with ⟨_, hRead, rfl, rfl⟩
  conv => lhs; rw [parameters]
  simp only [peek_cons, hParam, reduceCtorEq, if_false, if_neg hNew,
    if_pos hComma, expect_cons hParam, expect_cons hComma, ok_bind, hRead]
  rfl

theorem endOfLine_newline (hWord : word.kind = .newline) :
    outcomeOn (endOfLine (word :: rest)) = .ok ((), rest) := by
  unfold endOfLine
  simp only [peek_cons, hWord, reduceCtorEq, if_false, expect_cons hWord]
  rfl

theorem endOfLine_missing (h : (peek rest).kind = .eof) :
    outcomeOn (endOfLine rest) = .ok ((), rest) := by
  unfold endOfLine
  rw [if_pos h]
  rfl

theorem statement_simple
    (hStarts : startsSimple (peek tokens).kind = true)
    (h : outcome (simple tokens) = .ok (stmt, middle))
    (hEnd : outcomeOn (endOfLine middle) = .ok ((), rest)) :
    outcome (statement tokens) = .ok (stmt, rest) := by
  rcases outcome_eq_ok.mp h with ⟨_, hRead, rfl, rfl⟩
  rcases outcomeOn_eq_ok.mp hEnd with ⟨_, hLine, _, rfl⟩
  rw [statement]
  dsimp only
  split
  case h_8 =>
    rw [hRead, ok_bind, hLine]
    rfl
  all_goals next hKind =>
    rw [hKind] at hStarts
    exact absurd hStarts (by decide)

theorem statement_if
    (hWord : word.kind = .kwIf)
    (h : outcome (conditional word.line tokens) = .ok (stmt, rest)) :
    outcome (statement (word :: tokens)) = .ok (stmt, rest) := by
  rcases outcome_eq_ok.mp h with ⟨_, hRead, rfl, rfl⟩
  rw [statement]
  simp only [peek_cons, hWord, expect_cons hWord, ok_bind, hRead]
  rfl

theorem statement_while
    (hWord : word.kind = .kwWhile)
    (hTest : outcome (expression tokens) = .ok (e, middle))
    (hBody : outcome (block middle) = .ok (body, rest)) :
    outcome (statement (word :: tokens)) =
      .ok (.loop word.line e body, rest) := by
  rcases outcome_eq_ok.mp hTest with ⟨_, hRead, rfl, rfl⟩
  rcases outcome_eq_ok.mp hBody with ⟨_, hBlock, rfl, rfl⟩
  rw [statement]
  simp only [peek_cons, hWord, expect_cons hWord, ok_bind, hRead, hBlock]
  rfl

theorem statement_for {target link : Token}
    (hWord : word.kind = .kwFor)
    (hTarget : target.kind = .identifier)
    (hLink : link.kind = .kwIn)
    (hSource : outcome (expression tokens) = .ok (e, middle))
    (hBody : outcome (block middle) = .ok (body, rest)) :
    outcome (statement (word :: target :: link :: tokens)) =
      .ok (.each word.line target.lexeme e body, rest) := by
  rcases outcome_eq_ok.mp hSource with ⟨_, hRead, rfl, rfl⟩
  rcases outcome_eq_ok.mp hBody with ⟨_, hBlock, rfl, rfl⟩
  rw [statement]
  simp only [peek_cons, hWord, expect_cons hWord, expect_cons hTarget,
    expect_cons hLink, ok_bind, hRead, hBlock]
  rfl

theorem statement_def {name left : Token}
    (hWord : word.kind = .kwDef)
    (hName : name.kind = .identifier)
    (hLeft : left.kind = .leftParen)
    (hParams : outcome (parameters name.lexeme [] tokens) =
      .ok (params, middle))
    (hBody : outcome (block middle) = .ok (body, rest)) :
    outcome (statement (word :: name :: left :: tokens)) =
      .ok (.define word.line name.lexeme params body, rest) := by
  rcases outcome_eq_ok.mp hParams with ⟨_, hRead, rfl, rfl⟩
  rcases outcome_eq_ok.mp hBody with ⟨_, hBlock, rfl, rfl⟩
  rw [statement]
  simp only [peek_cons, hWord, expect_cons hWord, expect_cons hName,
    expect_cons hLeft, ok_bind, hRead, hBlock]
  rfl

/- The tokens behind a conditional without another branch. -/
def NoBranch (rest : List Token) : Prop :=
  (peek rest).kind ≠ .kwElif ∧ (peek rest).kind ≠ .kwElse

section

variable (hTest : outcome (expression tokens) = .ok (e, middle))
include hTest

/- A conditional of one block. -/
theorem conditional_only
    (hBody : outcome (block middle) = .ok (body, rest))
    (hNext : NoBranch rest) :
    outcome (conditional line tokens) = .ok (.cond line e body [], rest) := by
  rcases outcome_eq_ok.mp hTest with ⟨_, hRead, rfl, rfl⟩
  rcases outcome_eq_ok.mp hBody with ⟨_, hBlock, rfl, rfl⟩
  rw [conditional]
  simp only [hRead, hBlock, ok_bind]
  split
  · next hKind => exact absurd hKind hNext.1
  · next hKind => exact absurd hKind hNext.2
  · rfl

variable {others : List Token}
  (hBody : outcome (block middle) = .ok (body, word :: others))
include hBody

/- A conditional with another one behind it. -/
theorem conditional_elif {nested : Stmt}
    (hWord : word.kind = .kwElif)
    (h : outcome (conditional word.line others) = .ok (nested, rest)) :
    outcome (conditional line tokens) = .ok (.cond line e body [nested], rest) := by
  rcases outcome_eq_ok.mp hTest with ⟨_, hRead, rfl, rfl⟩
  rcases outcome_eq_ok.mp hBody with ⟨q, hBlock, rfl, hRest⟩
  rcases expect_found hRest hWord with ⟨_, hFound, rfl, rfl⟩
  rcases outcome_eq_ok.mp h with ⟨_, hNested, rfl, rfl⟩
  have hKind : (peek q.rest).kind = .kwElif := by
    rw [hRest]
    exact hWord
  rw [conditional]
  simp only [hRead, hBlock, hKind, hFound, hNested, ok_bind]
  rfl

/- A conditional with two blocks. -/
theorem conditional_else {orElse : List Stmt}
    (hWord : word.kind = .kwElse)
    (h : outcome (block others) = .ok (orElse, rest)) :
    outcome (conditional line tokens) =
      .ok (.cond line e body orElse, rest) := by
  rcases outcome_eq_ok.mp hTest with ⟨_, hRead, rfl, rfl⟩
  rcases outcome_eq_ok.mp hBody with ⟨q, hBlock, rfl, hRest⟩
  rcases expect_found hRest hWord with ⟨_, hFound, rfl, rfl⟩
  rcases outcome_eq_ok.mp h with ⟨_, hElse, rfl, rfl⟩
  have hKind : (peek q.rest).kind = .kwElse := by
    rw [hRest]
    exact hWord
  rw [conditional]
  simp only [hRead, hBlock, hKind, hFound, hElse, ok_bind]
  rfl

end

theorem block_line
    (hColon : colon.kind = .colon)
    (hStarts : startsSimple (peek tokens).kind = true)
    (h : outcome (simple tokens) = .ok (stmt, middle))
    (hEnd : outcomeOn (endOfLine middle) = .ok ((), rest)) :
    outcome (block (colon :: tokens)) = .ok ([stmt], rest) := by
  rcases outcome_eq_ok.mp h with ⟨_, hRead, rfl, rfl⟩
  rcases outcomeOn_eq_ok.mp hEnd with ⟨_, hLine, _, rfl⟩
  have hNot : (peek tokens).kind ≠ .newline := by
    intro hKind
    rw [hKind] at hStarts
    exact absurd hStarts (by decide)
  rw [block]
  simp only [expect_cons hColon, ok_bind, if_neg hNot, hRead, hLine]
  rfl

theorem block_indented {newline indent : Token}
    (hColon : colon.kind = .colon)
    (hNewline : newline.kind = .newline)
    (hIndent : indent.kind = .indent)
    (h : outcome (statements tokens) = .ok (body, rest)) :
    outcome (block (colon :: newline :: indent :: tokens)) = .ok (body, rest) := by
  rcases outcome_eq_ok.mp h with ⟨_, hRead, rfl, rfl⟩
  rw [block]
  simp only [peek_cons, if_pos hNewline, expect_cons hColon,
    expect_cons hNewline, expect_cons hIndent, ok_bind, hRead]
  rfl

theorem statements_done (hDedent : dedent.kind = .dedent) :
    outcome (statements (dedent :: rest)) = .ok ([], rest) := by
  rw [statements]
  simp only [peek_cons, hDedent, true_or, if_true, expect_cons hDedent]
  rfl

theorem statements_next {others : List Stmt}
    (hStarts : startsStatement (peek tokens).kind = true)
    (h : outcome (statement tokens) = .ok (stmt, middle))
    (hOthers : outcome (statements middle) = .ok (others, rest)) :
    outcome (statements tokens) = .ok (stmt :: others, rest) := by
  rcases outcome_eq_ok.mp h with ⟨_, hRead, rfl, rfl⟩
  rcases outcome_eq_ok.mp hOthers with ⟨_, hMore, rfl, rfl⟩
  have hNot : ¬((peek tokens).kind = .dedent ∨ (peek tokens).kind = .eof) := by
    rintro (hKind | hKind) <;> rw [hKind] at hStarts <;>
      exact absurd hStarts (by decide)
  rw [statements]
  simp only [if_neg hNot, hRead, hMore, ok_bind]
  rfl

/- Blank lines between the statements of a script. -/
theorem script_blank (hWord : word.kind = .newline) :
    script (word :: rest) = script rest := by
  conv => lhs; rw [script]
  simp only [hWord, reduceCtorEq, if_false, if_true]

theorem script_next
    (hStarts : startsStatement (peek tokens).kind = true)
    (h : outcome (statement tokens) = .ok (stmt, rest)) :
    script tokens = (script rest).map (stmt :: ·) := by
  rcases outcome_eq_ok.mp h with ⟨p, hRead, rfl, rfl⟩
  cases tokens with
  | nil => exact absurd hStarts (by decide)
  | cons token =>
    have hEnd : token.kind ≠ .eof := by
      intro hKind
      simp [peek, hKind, startsStatement, startsSimple, opens] at hStarts
    have hBlank : token.kind ≠ .newline := by
      intro hKind
      simp [peek, hKind, startsStatement, startsSimple, opens] at hStarts
    conv => lhs; rw [script]
    simp only [if_neg hEnd, if_neg hBlank, hRead, ok_bind]
    cases script p.rest with
    | error | ok => rfl

end Parser

variable {rest : List Token}

namespace Grammar

open Script.Parser

variable {e : Expr}

theorem Phrase.Derives.read
    (h : Phrase.Derives .expression ts e)
    (hRest : tightness (peek rest).kind = 0) :
    outcome (Parser.expression (ts ++ rest)) = .ok (e, rest) := expression_whole h.accepted hRest

/- The rest of an assignment starts with an equals sign. -/
theorem Assigned.starts
    (h : Assigned ts places e)
    (rest : List Token) :
    (peek (ts ++ rest)).kind = .assign := by
  cases h with
  | value hEquals | target hEquals => exact hEquals

/- All targets of an assignment are read. -/
theorem Assigned.accepted
    (h : Assigned ts places e)
    (hEnds : Ends rest) :
    outcome (Parser.assignments (ts ++ rest)) = .ok ((places, e), rest) := by
  induction h with
  | value hEquals h =>
    exact assignments_last hEquals (h.read hEnds.tightness_eq)
      (hEnds.kind_ne (by decide) (by decide))
  | target hEquals hPlace hMore ih =>
    have hNext := hMore.starts rest
    rw [cons_append, append_assoc]
    refine assignments_more hEquals (hPlace.read ?_) hNext ih
    rw [hNext]
    rfl

/- A statement on one line is read to its end. -/
theorem Simple.accepted
    (h : Simple ts stmt)
    (hEnds : Ends rest) :
    outcome (simple (ts ++ rest)) = .ok (stmt, rest) := by
  cases h with
  | pass hWord => exact simple_word (.inl ⟨hWord, rfl⟩)
  | breakLoop hWord => exact simple_word (.inr (.inl ⟨hWord, rfl⟩))
  | continueLoop hWord => exact simple_word (.inr (.inr ⟨hWord, rfl⟩))
  | ret hWord => exact simple_return hWord hEnds
  | retValue hWord h =>
    have hStarts := h.starts
    rw [← Phrase.expression.peek_append rest hStarts (by decide)] at hStarts
    exact simple_returnValue hWord hStarts (h.read hEnds.tightness_eq)
  | expr h =>
    have hRead := h.read hEnds.tightness_eq
    exact (simple_expression hRead h.starts).trans (afterExpression_stop hEnds)
  | @assign _ us _ _ _ _ hPlace h =>
    have hNext := h.starts rest
    have hTight : tightness (peek (us ++ rest)).kind = 0 := by
      rw [hNext]
      rfl
    rw [append_assoc]
    exact (simple_expression (hPlace.read hTight) hPlace.starts).trans
      (afterExpression_assign hNext (h.accepted hEnds))
  | @augment _ us _ sign _ op _ hPlace hSign h =>
    have hTight : tightness (peek (sign :: us ++ rest)).kind = 0 := by
      change tightness sign.kind = 0
      rw [hSign]
      cases op <;> rfl
    rw [append_assoc]
    exact (simple_expression (hPlace.read hTight) hPlace.starts).trans
      (afterExpression_augment hSign (h.read hEnds.tightness_eq))

------------------------------------------------------------
-- Accepted Statements
------------------------------------------------------------

/- Parameters are read up to the parenthesis. -/
theorem Parameters.accepted
    (h : Parameters ts params)
    (hDistinct : params.Nodup)
    (hNew : ∀ p ∈ params, p ∉ seen)
    (hClose : close.kind = .rightParen) :
    outcome (parameters function seen (ts ++ close :: rest)) = .ok (params, rest) := by
  induction h generalizing seen with
  | none => exact parameters_none hClose
  | one hParam => exact parameters_last hParam (hNew _ mem_cons_self) hClose
  | more hParam hComma _ ih =>
    have hHead := nodup_cons.mp hDistinct
    refine parameters_more hParam (hNew _ mem_cons_self) hComma (ih hHead.2 ?_)
    intro other hOther hSeen
    rcases mem_cons.mp hSeen with rfl | hSeen
    · exact hHead.1 hOther
    · exact hNew other (mem_cons_of_mem _ hOther) hSeen

/- What may follow a line: anything, if the line is closed. -/
def Follows (closed : Bool) (rest : List Token) : Prop :=
  closed = false → (peek rest).kind = .eof

theorem LineEnd.accepted
    (h : LineEnd closed ts)
    (hRest : Follows closed rest) :
    Ends (ts ++ rest) ∧
      outcomeOn (endOfLine (ts ++ rest)) = .ok ((), rest) := by
  cases h with
  | newline hWord => exact ⟨.inl hWord, endOfLine_newline hWord⟩
  | missing => exact ⟨.inr (hRest rfl), endOfLine_missing (hRest rfl)⟩

/- Tokens are read as a part of a statement wherever it can end. -/
def Clause.Accepted : (clause : Clause) → List Token → clause.Tree → Prop
  | statement closed, ts, stmt => ∀ rest, Follows closed rest → NoBranch rest →
        outcome (Parser.statement (ts ++ rest)) = .ok (stmt, rest)
  | branches line closed, ts, stmt => ∀ rest, Follows closed rest → NoBranch rest →
        outcome (conditional line (ts ++ rest)) = .ok (stmt, rest)
  | block closed, ts, body => ∀ rest, Follows closed rest →
        outcome (Parser.block (ts ++ rest)) = .ok (body, rest)
  | suite, ts, body => ∀ dedent rest, dedent.kind = .dedent →
        outcome (statements (ts ++ dedent :: rest)) = .ok (body, rest)

theorem noBranch_of_startsStatement
    (h : startsStatement (peek rest).kind = true) :
    NoBranch rest := by
  constructor <;> intro hKind <;> rw [hKind] at h <;>
    exact absurd h (by decide)

/- No branch follows a statement within a block. -/
theorem Clause.Derives.noBranch
    (h : Derives .suite ts body)
    (hDedent : dedent.kind = .dedent) :
    NoBranch (ts ++ dedent :: rest) := by
  cases h with
  | done => constructor <;> simp [peek, hDedent]
  | next h _ =>
    rw [append_assoc]
    refine noBranch_of_startsStatement ?_
    rw [peek_append_of_startsStatement _ h.starts]
    exact h.starts

/- A block starts with a colon, which ends an expression. -/
theorem Clause.Derives.tightness_eq
    (h : Derives (.block closed) ts body)
    (rest : List Token) :
    tightness (peek (ts ++ rest)).kind = 0 := by
  cases h with
  | line hColon | indented hColon => simp [peek, hColon, tightness]

/-
  Derived tokens are read as their statements. The induction
  is on the derivation.
-/
theorem Clause.Derives.accepted {clause : Clause} {tree : clause.Tree}
    (h : clause.Derives ts tree) :
    clause.Accepted ts tree := by
  induction h with
  | simple h hEnd =>
    intro _ hRest _
    rcases hEnd.accepted hRest with ⟨hEnds, hLine⟩
    have hStarts := h.starts
    rw [append_assoc]
    refine statement_simple ?_ (h.accepted hEnds) hLine
    rw [peek_append_of_startsStatement _ (startsStatement_of_startsSimple hStarts)]
    exact hStarts
  | conditional hWord _ ih =>
    intro rest hRest hNext
    exact statement_if hWord (ih rest hRest hNext)
  | loop hWord hTest hBody ih =>
    intro rest hRest _
    rw [cons_append, append_assoc]
    exact statement_while hWord (hTest.read (hBody.tightness_eq rest)) (ih rest hRest)
  | each hWord hTarget hLink hSource hBody ih =>
    intro rest hRest _
    rw [cons_append, cons_append, cons_append, append_assoc]
    exact statement_for hWord hTarget hLink (hSource.read (hBody.tightness_eq rest)) (ih rest hRest)
  | define hWord hName hLeft hParams hDistinct hRight _ ih =>
    intro rest hRest _
    rw [cons_append, cons_append, cons_append, append_assoc]
    refine statement_def hWord hName hLeft (hParams.accepted hDistinct ?_ hRight) (ih rest hRest)
    exact fun _ _ => not_mem_nil
  | only hTest hBody ih =>
    intro rest hRest hNext
    rw [append_assoc]
    exact conditional_only (hTest.read (hBody.tightness_eq rest)) (ih rest hRest) hNext
  | orElse hTest hBody hWord _ ihBody ihElse =>
    intro rest hRest _
    rw [append_assoc, append_assoc]
    exact conditional_else (hTest.read (hBody.tightness_eq _))
      (ihBody _ nofun) hWord (ihElse rest hRest)
  | elif hTest hBody hWord _ ihBody ihNested =>
    intro rest hRest hNext
    rw [append_assoc, append_assoc]
    exact conditional_elif (hTest.read (hBody.tightness_eq _))
      (ihBody _ nofun) hWord (ihNested rest hRest hNext)
  | line hColon h hEnd =>
    intro _ hRest
    rcases hEnd.accepted hRest with ⟨hEnds, hLine⟩
    have hStarts := h.starts
    rw [cons_append, append_assoc]
    refine block_line hColon ?_ (h.accepted hEnds) hLine
    rw [peek_append_of_startsStatement _ (startsStatement_of_startsSimple hStarts)]
    exact hStarts
  | indented hColon hNewline hIndent _ hDedent ih =>
    intro rest _
    rw [cons_append, cons_append, cons_append, append_assoc]
    exact block_indented hColon hNewline hIndent (ih _ rest hDedent)
  | done =>
    intro _ _ hDedent
    exact statements_done hDedent
  | next h hOthers ih ihOthers =>
    intro dedent rest hDedent
    rw [append_assoc]
    refine statements_next ?_ (ih _ nofun (hOthers.noBranch hDedent)) (ihOthers dedent rest hDedent)
    rw [peek_append_of_startsStatement _ h.starts]
    exact h.starts

variable (h : Program ts stmts) (hRest : (peek rest).kind = .eof)
include h hRest

/- No branch follows a statement of a script. -/
theorem Program.noBranch :
    NoBranch (ts ++ rest) := by
  have hStatement {closed : Bool} {us vs : List Token} {stmt : Stmt}
      (h : Clause.Derives (.statement closed) us stmt) : NoBranch (us ++ vs) := by
    refine noBranch_of_startsStatement ?_
    rw [peek_append_of_startsStatement _ h.starts]
    exact h.starts
  cases h with
  | empty => constructor <;> simp [hRest]
  | blank hWord => constructor <;> simp [peek, hWord]
  | next h =>
    rw [append_assoc]
    exact hStatement h
  | last h => exact hStatement h

/- Derived tokens are read as their script. -/
theorem Program.accepted :
    script (ts ++ rest) = .ok stmts := by
  induction h with
  | empty => exact script_at_end hRest
  | blank hWord _ ih =>
    rw [cons_append, script_blank hWord]
    exact ih
  | @next _ us _ _ h hOthers ih =>
    have hRead := h.accepted (us ++ rest) nofun (hOthers.noBranch hRest)
    have hStarts := h.starts
    rw [← peek_append_of_startsStatement (us ++ rest) hStarts] at hStarts
    rw [append_assoc, script_next hStarts hRead, ih]
    rfl
  | last h =>
    have hNext : NoBranch rest := by constructor <;> simp [hRest]
    have hRead := h.accepted rest (fun _ => hRest) hNext
    have hStarts := h.starts
    rw [← peek_append_of_startsStatement rest hStarts] at hStarts
    rw [script_next hStarts hRead, script_at_end hRest]
    rfl

end Grammar

/- The tokens before the end of the input. -/
def beforeEnd (tokens : List Token) : List Token :=
  tokens.takeWhile (·.kind ≠ .eof)

theorem beforeEnd_append
    (h : Grammar.NoEnd ts)
    (hRest : (Parser.peek rest).kind = .eof) :
    beforeEnd (ts ++ rest) = ts := by
  unfold beforeEnd
  rw [takeWhile_append_of_pos]
  · cases rest with
    | nil => simp
    | cons token =>
      change token.kind = .eof at hRest
      simp [hRest]
  · intro t hT
    simpa using h t hT

/- Behind these tokens is the end of the input. -/
theorem eq_beforeEnd_append (tokens : List Token) :
    ∃ rest, tokens = beforeEnd tokens ++ rest ∧
      (Parser.peek rest).kind = .eof := by
  refine ⟨tokens.dropWhile (·.kind ≠ .eof), ?_, ?_⟩
  · exact takeWhile_append_dropWhile.symm
  · induction tokens with
    | nil => rfl
    | cons token _ ih =>
      by_cases hEnd : token.kind = .eof
      · rw [dropWhile_cons_of_neg (by simp [hEnd])]
        exact hEnd
      · rw [dropWhile_cons_of_pos (by simp [hEnd])]
        exact ih

theorem parse_eq_ok {tokens : List Token} {source : String} :
    parse tokens source = .ok stmts ↔ Parser.script tokens = .ok stmts := by
  unfold parse
  split
  · next h => simp [h]
  · next h => simp [h]

/-
  The parser accepts exactly the scripts of the grammar. It
  returns the tree that the tokens before the end of the
  input derive, and no tokens derive two trees.
-/
theorem parse_exact
    (tokens : List Token)
    (source : String) :
    (∀ stmts, parse tokens source = .ok stmts ↔ Grammar.Program (beforeEnd tokens) stmts) ∧
    (∀ stmts others, Grammar.Program (beforeEnd tokens) stmts →
        Grammar.Program (beforeEnd tokens) others → stmts = others) := by
  rcases eq_beforeEnd_append tokens with ⟨_, hTokens, hRest⟩
  have hRead {stmts : List Stmt} (h : Grammar.Program (beforeEnd tokens) stmts) :
      Parser.script tokens = .ok stmts := by
    rw [hTokens]
    exact h.accepted hRest
  constructor
  · intro _
    rw [parse_eq_ok]
    constructor
    · intro h
      rcases Parser.script_derives h with ⟨_, _, rfl, hEnd, hProgram⟩
      rw [beforeEnd_append hProgram.noEnd hEnd]
      exact hProgram
    · exact hRead
  · intro _ _ h hOthers
    have hSame := (hRead h).symm.trans (hRead hOthers)
    cases hSame
    rfl

/- The tokens of `x = y - 1 - 2` and of the end behind them. -/
def subtraction : List Token :=
  [⟨.identifier, "x", 1⟩, ⟨.assign, "=", 1⟩, ⟨.identifier, "y", 1⟩,
    ⟨.minus, "-", 1⟩, ⟨.integer, "1", 1⟩, ⟨.minus, "-", 1⟩, ⟨.integer, "2", 1⟩, ⟨.eof, "", 1⟩]

/- Its tree, where subtractions go from left to right. -/
def subtracted : List Stmt :=
  [.assign 1 (.name "x") [] (.arith .sub (.arith .sub (.name "y") (.literal 1)) (.literal 2))]

theorem parse_exact_subtraction :
    Grammar.Program (beforeEnd subtraction) subtracted ∧
      parse subtraction "x = y - 1 - 2" = .ok subtracted ∧
      ∀ others, Grammar.Program (beforeEnd subtraction) others → subtracted = others := by
  have hName (lexeme : String) : Grammar.Phrase.Derives .sum [⟨.identifier, lexeme, 1⟩]
        (.name lexeme) := .product (.unary (.postfixed (.primary (.name rfl))))
  have hMinus {ts : List Token} {left : Expr} {lexeme : String}
      {value : Int64} (hLeft : Grammar.Phrase.Derives .sum ts left)
      (hValue : Text.Numeral.readDecimal? lexeme = some value) : Grammar.Phrase.Derives .sum
        (ts ++ [⟨.minus, "-", 1⟩, ⟨.integer, lexeme, 1⟩]) (.arith .sub left (.literal value)) := by
    refine .addend hLeft (.inr rfl) rfl (.unary (.postfixed (.primary ?_)))
    exact .integer rfl (Text.Numeral.readDecimal?_eq_some.mp hValue)
  have hExpression {ts : List Token} {e : Expr} (h : Grammar.Phrase.Derives .sum ts e) :
      Grammar.Phrase.Derives .expression ts e := .conjunction (.negation (.comparison (.sum h)))
  have hOne : Text.Numeral.readDecimal? "1" = some 1 := by decide
  have hTwo : Text.Numeral.readDecimal? "2" = some 2 := by decide
  have hValue := hExpression (hMinus (hMinus (hName "y") hOne) hTwo)
  have hAssigned : Grammar.Assigned (⟨.assign, "=", 1⟩ :: _) [] _ := .value rfl hValue
  have hPlace : Grammar.Phrase.Derives .expression
      [⟨.identifier, "x", 1⟩] (Place.name "x").toExpr := hExpression (hName "x")
  have hProgram : Grammar.Program (beforeEnd subtraction) subtracted :=
    .last (.simple (.assign hPlace hAssigned) .missing)
  rcases parse_exact subtraction "x = y - 1 - 2" with ⟨hExact, hUnique⟩
  exact ⟨hProgram, (hExact _).mpr hProgram, fun others => hUnique _ others hProgram⟩

end Script

end Pep9
