import Pep9.Proofs.Script.Recognition

/-
  The parser reads every expression of its grammar. Tokens
  that derive a tree are read as that tree, in front of any
  tokens that cannot extend it.

  Key theorems: `Parser.disjuncts_or`,
  `Parser.suffixes_index`, `Grammar.Phrase.Derives.accepted`.
-/

namespace Pep9

open List Result

namespace Script

namespace Parser

section Outcomes

variable {α β : Type} {tokens rest middle : List Token} {token : Token}

/- The value that a reader returns, and the tokens it leaves. -/
def outcome (result : Except SyntaxFault (Parsed α tokens)) : Except SyntaxFault (α × List Token) :=
  result.map fun p => (p.value, p.rest)

/- The same for a reader that may take no tokens. -/
def outcomeOn (result : Except SyntaxFault (Within α tokens)) :
    Except SyntaxFault (α × List Token) :=
  result.map fun w => (w.value, w.rest)

variable {value : α}

theorem outcome_eq_ok {result : Except SyntaxFault (Parsed α tokens)} :
    outcome result = .ok (value, rest) ↔ ∃ p, result = .ok p ∧ p.value = value ∧ p.rest = rest := by
  unfold outcome
  rw [map_eq_ok]
  simp only [Prod.mk.injEq]

theorem outcomeOn_eq_ok {result : Except SyntaxFault (Within α tokens)} :
    outcomeOn result = .ok (value, rest) ↔
      ∃ w, result = .ok w ∧ w.value = value ∧ w.rest = rest := by
  unfold outcomeOn
  rw [map_eq_ok]
  simp only [Prod.mk.injEq]

theorem expect_found {kind : Kind}
    (hTokens : tokens = token :: rest)
    (h : token.kind = kind) :
    ∃ p, expect kind tokens = .ok p ∧ p.value = token ∧ p.rest = rest := by
  subst hTokens
  unfold expect
  exact ⟨_, if_pos h, rfl, rfl⟩

/- A first operand and what follows it. -/
theorem outcome_operands {first : Except SyntaxFault (Parsed Expr tokens)}
    {more : Expr → (ts : List Token) → Except SyntaxFault (Within Expr ts)}
    {left : Expr}
    (h : outcome first = .ok (left, middle)) :
    outcome (do
      let left ← first
      let whole ← more left.value left.rest
      return whole.parsed left.shorter) =
      outcomeOn (more left middle) := by
  rcases outcome_eq_ok.mp h with ⟨p, rfl, rfl, rfl⟩
  rw [ok_bind]
  cases more p.value p.rest with
  | error | ok => rfl

/- An operator, its right operand and what follows. -/
theorem outcomeOn_operator {operand : Except SyntaxFault (Parsed α rest)}
    {join : α → Expr}
    {more : Expr → (ts : List Token) → Except SyntaxFault (Within Expr ts)}
    {widen :
      ∀ right : Parsed α rest, right.rest.length ≤ (token :: rest).length}
    {right : α}
    (h : outcome operand = .ok (right, middle)) :
    outcomeOn (do
      let right ← operand
      let whole ← more (join right.value) right.rest
      return whole.widen (widen right)) =
      outcomeOn (more (join right) middle) := by
  rcases outcome_eq_ok.mp h with ⟨p, rfl, rfl, rfl⟩
  rw [ok_bind]
  cases more (join p.value) p.rest with
  | error | ok => rfl

/- Reading behind one more token, with another value. -/
theorem outcome_behind {result : Except SyntaxFault (Parsed α rest)} {f : α → β}
    {hLonger : rest.length ≤ (token :: rest).length}
    (h : outcome result = .ok (value, middle)) :
    outcome (do
      let p ← result
      return (p.map f).widen hLonger) =
      .ok (f value, middle) := by
  rcases outcome_eq_ok.mp h with ⟨_, rfl, rfl, rfl⟩
  rfl

end Outcomes

end Parser

/-
  How tightly a token ties the expression before it to what
  comes after. A token with 0 cannot go on with an expression.
-/
def Grammar.tightness : Kind → Nat
  | .kwOr => 1
  | .kwAnd => 2
  | .less => 4
  | .lessEquals => 4
  | .greater => 4
  | .greaterEquals => 4
  | .equals => 4
  | .notEquals => 4
  | .plus => 5
  | .minus => 5
  | .star => 6
  | .slash => 6
  | .percent => 6
  | .leftParen => 7
  | .leftBracket => 7
  | _ => 0

namespace Parser

open Grammar

variable {rest middle : List Token} {token : Token} {left right : Expr}
  {more : List Token}

theorem tightness_comparison (op : Comparison) : tightness op.kind = 4 := by
  cases op <;> rfl

variable {op : Arith} {tokens : List Token} {e : Expr} {close : Token}

theorem tightness_additive (h : op = .add ∨ op = .sub) :
    tightness op.kind = 5 := by
  rcases h with rfl | rfl <;> rfl

theorem tightness_multiplicative (h : op = .mul ∨ op = .div ∨ op = .mod) :
    tightness op.kind = 6 := by
  rcases h with rfl | rfl | rfl <;> rfl

theorem expression_eq (h : outcome (conjunction tokens) = .ok (left, middle)) :
    outcome (expression tokens) = outcomeOn (disjuncts left middle) := by
  rw [expression]
  exact outcome_operands h

theorem disjuncts_or
    (hWord : token.kind = .kwOr)
    (h : outcome (conjunction rest) = .ok (right, middle)) :
    outcomeOn (disjuncts left (token :: rest)) =
      outcomeOn (disjuncts (.logic .or left right) middle) := by
  conv => lhs; unfold disjuncts
  simp only [hWord, if_true]
  exact outcomeOn_operator h

theorem disjuncts_stop (h : tightness (peek rest).kind < 1) :
    outcomeOn (disjuncts left rest) = .ok (left, rest) := by
  cases rest with
  | nil => rw [disjuncts]; rfl
  | cons token =>
    have hKind : token.kind ≠ .kwOr := by
      intro hWord
      simp [peek, hWord, tightness] at h
    unfold disjuncts
    simp only [if_neg hKind]
    rfl

theorem conjunction_eq (h : outcome (negation tokens) = .ok (left, middle)) :
    outcome (conjunction tokens) = outcomeOn (conjuncts left middle) := by
  rw [conjunction]
  exact outcome_operands h

theorem conjuncts_and
    (hWord : token.kind = .kwAnd)
    (h : outcome (negation rest) = .ok (right, middle)) :
    outcomeOn (conjuncts left (token :: rest)) =
      outcomeOn (conjuncts (.logic .and left right) middle) := by
  conv => lhs; unfold conjuncts
  simp only [hWord, if_true]
  exact outcomeOn_operator h

theorem conjuncts_stop (h : tightness (peek rest).kind < 2) :
    outcomeOn (conjuncts left rest) = .ok (left, rest) := by
  cases rest with
  | nil => rw [conjuncts]; rfl
  | cons token =>
    have hKind : token.kind ≠ .kwAnd := by
      intro hWord
      simp [peek, hWord, tightness] at h
    unfold conjuncts
    simp only [if_neg hKind]
    rfl

theorem negation_not
    (hWord : token.kind = .kwNot)
    (h : outcome (negation rest) = .ok (right, middle)) :
    outcome (negation (token :: rest)) = .ok (.unary .not right, middle) := by
  conv => lhs; unfold negation
  simp only [hWord, if_true]
  exact outcome_behind h

theorem negation_other (h : 2 ≤ opens (peek tokens).kind) :
    negation tokens = comparison tokens := by
  cases tokens with
  | nil => rw [negation]
  | cons token =>
    have hKind : token.kind ≠ .kwNot := by
      intro hWord
      simp [peek, hWord, opens] at h
    conv => lhs; unfold negation
    simp only [if_neg hKind]

theorem comparison_eq {found : Option Chain}
    (h : outcome (sum tokens) = .ok (left, middle))
    (hMore : outcomeOn (comparisons middle) = .ok (found, more)) :
    outcome (comparison tokens) =
      .ok (found.elim left (.compare left), more) := by
  rcases outcome_eq_ok.mp h with ⟨_, hSum, rfl, rfl⟩
  rcases outcomeOn_eq_ok.mp hMore with ⟨w, hLinks, rfl, rfl⟩
  rw [comparison, hSum, ok_bind, hLinks]
  rcases w with ⟨found, _, _⟩
  cases found with
  | none | some => rfl

theorem comparisons_link {op : Comparison} {found : Option Chain}
    (hSign : token.kind = op.kind)
    (h : outcome (sum rest) = .ok (right, middle))
    (hMore : outcomeOn (comparisons middle) = .ok (found, more)) :
    outcomeOn (comparisons (token :: rest)) =
      .ok (some (found.elim (.last op right) (.link op right)), more) := by
  have hOp : comparison? token.kind = some op := comparison?_eq_some.mpr hSign
  rcases outcome_eq_ok.mp h with ⟨_, hSum, rfl, rfl⟩
  rcases outcomeOn_eq_ok.mp hMore with ⟨w, hLinks, rfl, rfl⟩
  conv => lhs; rw [comparisons]
  simp only [hOp, hSum, hLinks, ok_bind]
  rcases w with ⟨found, _, _⟩
  cases found with
  | none | some => rfl

theorem comparisons_stop (h : tightness (peek rest).kind < 4) :
    outcomeOn (comparisons rest) = .ok (none, rest) := by
  cases rest with
  | nil => rw [comparisons]; rfl
  | cons =>
    rw [comparisons]
    split
    · next op hOp =>
      have hTight := tightness_comparison op
      rw [← comparison?_eq_some.mp hOp] at hTight
      exact absurd hTight (Nat.ne_of_lt h)
    · rfl

theorem sum_eq (h : outcome (product tokens) = .ok (left, middle)) :
    outcome (sum tokens) = outcomeOn (addends left middle) := by
  rw [sum]
  exact outcome_operands h

theorem addends_sign
    (hOp : op = .add ∨ op = .sub)
    (hSign : token.kind = op.kind)
    (h : outcome (product rest) = .ok (right, middle)) :
    outcomeOn (addends left (token :: rest)) =
      outcomeOn (addends (.arith op left right) middle) := by
  have hFound : additive? token.kind = some op := additive?_eq_some.mpr ⟨hOp, hSign⟩
  conv => lhs; unfold addends
  simp only [hFound]
  exact outcomeOn_operator h

theorem addends_stop (h : tightness (peek rest).kind < 5) :
    outcomeOn (addends left rest) = .ok (left, rest) := by
  cases rest with
  | nil => rw [addends]; rfl
  | cons =>
    unfold addends
    split
    · next op hOp =>
      rcases additive?_eq_some.mp hOp with ⟨hSum, hSign⟩
      have hTight := tightness_additive hSum
      rw [← hSign] at hTight
      exact absurd hTight (Nat.ne_of_lt h)
    · rfl

theorem product_eq (h : outcome (unary tokens) = .ok (left, middle)) :
    outcome (product tokens) = outcomeOn (factors left middle) := by
  rw [product]
  exact outcome_operands h

theorem factors_sign
    (hOp : op = .mul ∨ op = .div ∨ op = .mod)
    (hSign : token.kind = op.kind)
    (h : outcome (unary rest) = .ok (right, middle)) :
    outcomeOn (factors left (token :: rest)) =
      outcomeOn (factors (.arith op left right) middle) := by
  have hFound : multiplicative? token.kind = some op := multiplicative?_eq_some.mpr ⟨hOp, hSign⟩
  conv => lhs; unfold factors
  simp only [hFound]
  exact outcomeOn_operator h

theorem factors_stop (h : tightness (peek rest).kind < 6) :
    outcomeOn (factors left rest) = .ok (left, rest) := by
  cases rest with
  | nil => rw [factors]; rfl
  | cons =>
    unfold factors
    split
    · next op hOp =>
      rcases multiplicative?_eq_some.mp hOp with ⟨hProduct, hSign⟩
      have hTight := tightness_multiplicative hProduct
      rw [← hSign] at hTight
      exact absurd hTight (Nat.ne_of_lt h)
    · rfl

theorem unary_minus
    (hSign : token.kind = .minus)
    (h : outcome (unary rest) = .ok (right, middle)) :
    outcome (unary (token :: rest)) = .ok (negated right, middle) := by
  conv => lhs; unfold unary
  simp only [hSign, if_true]
  exact outcome_behind h

theorem negated_other (h : ∀ value, e ≠ .literal value) :
    negated e = .unary .negate e := by
  cases e with
  | literal value => exact absurd rfl (h value)
  | _ => rfl

theorem unary_plus
    (hSign : token.kind = .plus)
    (h : outcome (unary rest) = .ok (right, middle)) :
    outcome (unary (token :: rest)) = .ok (right, middle) := by
  rcases outcome_eq_ok.mp h with ⟨_, hUnary, rfl, rfl⟩
  conv => lhs; unfold unary
  simp only [hSign, reduceCtorEq, if_false, if_true, hUnary]
  rfl

theorem unary_other (h : 3 ≤ opens (peek tokens).kind) :
    unary tokens = postfixed tokens := by
  cases tokens with
  | nil => rw [unary]
  | cons token =>
    have hMinus : token.kind ≠ .minus := by
      intro hSign
      simp [peek, hSign, opens] at h
    have hPlus : token.kind ≠ .plus := by
      intro hSign
      simp [peek, hSign, opens] at h
    conv => lhs; unfold unary
    simp only [if_neg hMinus, if_neg hPlus]

------------------------------------------------------------
-- Subscripts, Calls and Primary Expressions
------------------------------------------------------------

theorem postfixed_eq (h : outcome (primary tokens) = .ok (left, middle)) :
    outcome (postfixed tokens) = outcomeOn (suffixes left middle) := by
  rw [postfixed]
  exact outcome_operands h

theorem suffixes_index {base position : Expr}
    (hLeft : token.kind = .leftBracket)
    (h : outcome (expression rest) = .ok (position, close :: middle))
    (hRight : close.kind = .rightBracket) :
    outcomeOn (suffixes base (token :: rest)) =
      outcomeOn (suffixes (.index base position) middle) := by
  rcases outcome_eq_ok.mp h with ⟨p, hRead, rfl, hRest⟩
  rcases expect_found hRest hRight with ⟨q, hClose, _, rfl⟩
  conv => lhs; unfold suffixes
  simp only [hLeft, if_true, hRead, hClose, ok_bind]
  cases suffixes (.index base p.value) q.rest with
  | error | ok => rfl

theorem suffixes_call {function : String} {args : List Expr}
    (hLeft : token.kind = .leftParen)
    (h : outcome (arguments .rightParen rest) = .ok (args, middle)) :
    outcomeOn (suffixes (.name function) (token :: rest)) =
      outcomeOn (suffixes (.call function args) middle) := by
  conv => lhs; unfold suffixes
  simp only [hLeft, reduceCtorEq, if_false, if_true]
  exact outcomeOn_operator h

theorem suffixes_stop (h : tightness (peek rest).kind < 7) :
    outcomeOn (suffixes left rest) = .ok (left, rest) := by
  cases rest with
  | nil => unfold suffixes; rfl
  | cons token =>
    have hBracket : token.kind ≠ .leftBracket := by
      intro hKind
      simp [peek, hKind, tightness] at h
    have hParen : token.kind ≠ .leftParen := by
      intro hKind
      simp [peek, hKind, tightness] at h
    unfold suffixes
    simp only [if_neg hBracket, if_neg hParen]
    rfl

theorem arguments_none :
    outcome (arguments close.kind (close :: rest)) = .ok ([], rest) := by
  have hFound := expect_found (rfl : close :: rest = close :: rest) (rfl : close.kind = close.kind)
  rcases hFound with ⟨_, hClose, _, hRest⟩
  rw [arguments]
  rw [if_pos (by rfl), hClose]
  exact congrArg (fun ts => Except.ok ([], ts)) hRest

theorem arguments_last
    (hOpen : (peek tokens).kind ≠ close.kind)
    (hClose : close.kind ≠ .comma)
    (h : outcome (expression tokens) = .ok (e, close :: rest)) :
    outcome (arguments close.kind tokens) = .ok ([e], rest) := by
  rcases outcome_eq_ok.mp h with ⟨p, hRead, rfl, hRest⟩
  rcases expect_found hRest rfl with ⟨_, hFound, _, rfl⟩
  have hPeek : (peek p.rest).kind ≠ .comma := by
    rw [hRest]
    exact hClose
  rw [arguments]
  simp only [if_neg hOpen, hRead, if_neg hPeek, hFound, ok_bind]
  rfl

theorem arguments_more {closing : Kind} {comma : Token} {others : List Expr}
    (hOpen : (peek tokens).kind ≠ closing)
    (h : outcome (expression tokens) = .ok (e, comma :: middle))
    (hComma : comma.kind = .comma)
    (hOthers : outcome (arguments closing middle) = .ok (others, rest)) :
    outcome (arguments closing tokens) = .ok (e :: others, rest) := by
  rcases outcome_eq_ok.mp h with ⟨p, hRead, rfl, hRest⟩
  rcases expect_found hRest hComma with ⟨_, hFound, _, rfl⟩
  rcases outcome_eq_ok.mp hOthers with ⟨_, hMore, rfl, rfl⟩
  have hPeek : (peek p.rest).kind = .comma := by
    rw [hRest]
    exact hComma
  rw [arguments]
  simp only [if_neg hOpen, hRead, if_pos hPeek, hFound, hMore, ok_bind]
  rfl

theorem primary_integer {value : Int64}
    (hKind : token.kind = .integer)
    (hValue : Text.Numeral.IsDecimal token.lexeme value) :
    outcome (primary (token :: rest)) = .ok (.literal value, rest) := by
  have hRead := Text.Numeral.readDecimal?_eq_some.mpr hValue
  rw [primary]
  simp only [hKind, hRead]
  rfl

theorem primary_string (hKind : token.kind = .string) :
    outcome (primary (token :: rest)) = .ok (.string token.lexeme, rest) := by
  rw [primary]
  simp only [hKind]
  rfl

theorem primary_name (hKind : token.kind = .identifier) :
    outcome (primary (token :: rest)) = .ok (.name token.lexeme, rest) := by
  rw [primary]
  simp only [hKind]
  rfl

theorem primary_paren
    (hLeft : token.kind = .leftParen)
    (h : outcome (expression rest) = .ok (e, close :: middle))
    (hRight : close.kind = .rightParen) :
    outcome (primary (token :: rest)) = .ok (e, middle) := by
  rcases outcome_eq_ok.mp h with ⟨_, hRead, rfl, hRest⟩
  rcases expect_found hRest hRight with ⟨_, hClose, _, rfl⟩
  rw [primary]
  simp only [hLeft, hRead, hClose, ok_bind]
  rfl

theorem primary_list {elements : List Expr}
    (hLeft : token.kind = .leftBracket)
    (h : outcome (arguments .rightBracket rest) = .ok (elements, middle)) :
    outcome (primary (token :: rest)) = .ok (.list elements, middle) := by
  rw [primary]
  simp only [hLeft]
  exact outcome_behind h

end Parser

namespace Grammar

open Script.Parser

/-
  Tokens are read as a tree wherever the token behind them
  cannot extend it. Readers of operands then go on with the
  operators behind the tree.
-/
def Phrase.Accepted : (phrase : Phrase) → List Token → phrase.Tree → Prop
  | expression, ts, e => ∀ rest, tightness (peek rest).kind ≤ 1 →
        outcome (Parser.expression (ts ++ rest)) = outcomeOn (disjuncts e rest)
  | conjunction, ts, e => ∀ rest, tightness (peek rest).kind ≤ 2 →
        outcome (Parser.conjunction (ts ++ rest)) = outcomeOn (conjuncts e rest)
  | negation, ts, e => ∀ rest, tightness (peek rest).kind ≤ 3 →
        outcome (Parser.negation (ts ++ rest)) = .ok (e, rest)
  | comparison, ts, e => ∀ rest, tightness (peek rest).kind ≤ 3 →
        outcome (Parser.comparison (ts ++ rest)) = .ok (e, rest)
  | chain, ts, links => ∀ rest, tightness (peek rest).kind ≤ 3 →
        outcomeOn (comparisons (ts ++ rest)) = .ok (some links, rest)
  | sum, ts, e => ∀ rest, tightness (peek rest).kind ≤ 5 →
        outcome (Parser.sum (ts ++ rest)) = outcomeOn (addends e rest)
  | product, ts, e => ∀ rest, tightness (peek rest).kind ≤ 6 →
        outcome (Parser.product (ts ++ rest)) = outcomeOn (factors e rest)
  | unary, ts, e => ∀ rest, tightness (peek rest).kind ≤ 6 →
        outcome (Parser.unary (ts ++ rest)) = .ok (e, rest)
  | postfixed, ts, e => ∀ rest, outcome (Parser.postfixed (ts ++ rest)) =
        outcomeOn (suffixes e rest)
  | primary, ts, e => ∀ rest, outcome (Parser.primary (ts ++ rest)) = .ok (e, rest)
  | arguments, ts, args => ∀ close rest, opens close.kind = 0 → tightness close.kind = 0 →
        close.kind ≠ .comma → outcome (Parser.arguments close.kind (ts ++ close :: rest)) =
            .ok (args, rest)

section Whole

variable {ts rest : List Token} {e : Expr}

/- An expression in front of a token that cannot extend it. -/
theorem expression_whole
    (h : Phrase.Accepted .expression ts e)
    (hRest : tightness (peek rest).kind = 0) :
    outcome (expression (ts ++ rest)) = .ok (e, rest) := by
  rw [h rest (by omega), disjuncts_stop (by omega)]

theorem conjunction_whole
    (h : Phrase.Accepted .conjunction ts e)
    (hRest : tightness (peek rest).kind ≤ 1) :
    outcome (conjunction (ts ++ rest)) = .ok (e, rest) := by
  rw [h rest (by omega), conjuncts_stop (by omega)]

theorem sum_whole
    (h : Phrase.Accepted .sum ts e)
    (hRest : tightness (peek rest).kind ≤ 4) :
    outcome (sum (ts ++ rest)) = .ok (e, rest) := by
  rw [h rest (by omega), addends_stop (by omega)]

theorem product_whole
    (h : Phrase.Accepted .product ts e)
    (hRest : tightness (peek rest).kind ≤ 5) :
    outcome (product (ts ++ rest)) = .ok (e, rest) := by
  rw [h rest (by omega), factors_stop (by omega)]

theorem postfixed_whole
    (h : Phrase.Accepted .postfixed ts e)
    (hRest : tightness (peek rest).kind ≤ 6) :
    outcome (postfixed (ts ++ rest)) = .ok (e, rest) := by
  rw [h rest, suffixes_stop (by omega)]

end Whole

/- A chain starts with a comparison. -/
theorem chain_tightness {ts : List Token} {links : Chain}
    (h : Phrase.Derives .chain ts links)
    (rest : List Token) :
    tightness (peek (ts ++ rest)).kind = 4 := by
  cases h with
  | @last _ _ op _ hSign | @link _ _ _ op _ _ hSign => simp [peek, hSign, tightness_comparison op]

/-
  Derived tokens are read as their tree. The induction is on
  the derivation; each case is one step of the reader that
  the rule belongs to.
-/
theorem Phrase.Derives.accepted {phrase : Phrase} {ts : List Token}
    {tree : phrase.Tree}
    (h : phrase.Derives ts tree) :
    phrase.Accepted ts tree := by
  induction h with
  | conjunction _ ih =>
    intro _ hRest
    exact expression_eq (conjunction_whole ih hRest)
  | or _ hWord _ ihLeft ihRight =>
    intro _ hRest
    rw [append_assoc, ihLeft _ (by simp [peek, hWord, tightness])]
    exact disjuncts_or hWord (conjunction_whole ihRight hRest)
  | negation _ ih =>
    intro rest _
    exact conjunction_eq (ih rest (by omega))
  | and _ hWord _ ihLeft ihRight =>
    intro rest _
    rw [append_assoc, ihLeft _ (by simp [peek, hWord, tightness])]
    exact conjuncts_and hWord (ihRight rest (by omega))
  | comparison h ih =>
    intro rest hRest
    have hStarts := h.starts
    rw [← Phrase.comparison.peek_append rest hStarts (by decide)] at hStarts
    rw [negation_other hStarts]
    exact ih rest hRest
  | not hWord _ ih =>
    intro rest hRest
    exact negation_not hWord (ih rest hRest)
  | sum _ ih =>
    intro _ _
    exact comparison_eq (sum_whole ih (by omega)) (comparisons_stop (by omega))
  | compare _ hChain ihLeft ihChain =>
    intro rest hRest
    rw [append_assoc]
    have hSign := chain_tightness hChain rest
    exact comparison_eq (sum_whole ihLeft (by omega)) (ihChain rest hRest)
  | last hSign _ ih =>
    intro _ _
    exact comparisons_link hSign (sum_whole ih (by omega)) (comparisons_stop (by omega))
  | link hSign _ hChain ihRight ihChain =>
    intro rest hRest
    rw [cons_append, append_assoc]
    have hNext := chain_tightness hChain rest
    exact comparisons_link hSign (sum_whole ihRight (by omega)) (ihChain rest hRest)
  | product _ ih =>
    intro _ hRest
    exact sum_eq (product_whole ih hRest)
  | addend _ hOp hSign _ ihLeft ihRight =>
    intro _ hRest
    have hTight := tightness_additive hOp
    rw [← hSign] at hTight
    rw [append_assoc]
    refine (ihLeft _ ?_).trans (addends_sign hOp hSign (product_whole ihRight hRest))
    exact Nat.le_of_eq hTight
  | unary _ ih =>
    intro rest hRest
    exact product_eq (ih rest hRest)
  | factor _ hOp hSign _ ihLeft ihRight =>
    intro rest hRest
    have hTight := tightness_multiplicative hOp
    rw [← hSign] at hTight
    rw [append_assoc]
    refine (ihLeft _ ?_).trans (factors_sign hOp hSign (ihRight rest hRest))
    exact Nat.le_of_eq hTight
  | postfixed h ih =>
    intro rest hRest
    have hStarts := h.starts
    rw [← Phrase.postfixed.peek_append rest hStarts (by decide)] at hStarts
    rw [unary_other hStarts]
    exact postfixed_whole ih hRest
  | plus hSign _ ih =>
    intro rest hRest
    exact unary_plus hSign (ih rest hRest)
  | negative hSign _ ih =>
    intro rest hRest
    exact unary_minus hSign (ih rest hRest)
  | negate hSign _ hOther ih =>
    intro rest hRest
    rw [cons_append, unary_minus hSign (ih rest hRest), negated_other hOther]
  | primary _ ih =>
    intro rest
    exact postfixed_eq (ih rest)
  | index _ hLeft _ hRight ihBase ihPosition =>
    intro _
    rw [append_assoc, ihBase, cons_append, append_assoc]
    refine suffixes_index hLeft (expression_whole ihPosition ?_) hRight
    simp [peek, hRight, tightness]
  | call _ hLeft _ hRight ihBase ihArgs =>
    intro rest
    rw [append_assoc, ihBase, cons_append, append_assoc]
    refine suffixes_call hLeft ?_
    rw [← hRight]
    refine ihArgs _ rest ?_ ?_ ?_ <;> simp [hRight, opens, tightness]
  | integer hKind hValue =>
    intro _
    exact primary_integer hKind hValue
  | string hKind =>
    intro _
    exact primary_string hKind
  | name hKind =>
    intro _
    exact primary_name hKind
  | paren hLeft _ hRight ih =>
    intro _
    rw [cons_append, append_assoc]
    refine primary_paren hLeft (expression_whole ih ?_) hRight
    simp [peek, hRight, tightness]
  | list hLeft _ hRight ih =>
    intro rest
    rw [cons_append, append_assoc]
    refine primary_list hLeft ?_
    rw [← hRight]
    refine ih _ rest ?_ ?_ ?_ <;> simp [hRight, opens, tightness]
  | noArguments =>
    intro _ _ _ _ _
    exact arguments_none
  | argument h ih =>
    intro close rest hOpens hTight hComma
    have hStarts := h.starts
    rw [← Phrase.expression.peek_append (close :: rest) hStarts (by decide)] at hStarts
    refine arguments_last ?_ hComma (expression_whole ih hTight)
    intro hSame
    rw [hSame, hOpens] at hStarts
    exact absurd hStarts (by decide)
  | more h hComma _ ih ihOthers =>
    intro close rest hOpens hTight hNot
    have hStarts := h.starts
    rw [← Phrase.expression.peek_append _ hStarts (by decide)] at hStarts
    rw [append_assoc]
    refine arguments_more ?_ (expression_whole ih ?_) hComma
      (ihOthers close rest hOpens hTight hNot)
    · intro hSame
      rw [hSame, hOpens] at hStarts
      exact absurd hStarts (by decide)
    · simp [peek, hComma, tightness]

end Grammar

end Script

end Pep9
