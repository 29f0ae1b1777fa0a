import Pep9.Proofs.Result
import Pep9.Proofs.Script.Grammar

/-
  The parser keeps to its grammar. Whatever a reader returns
  is derived from the tokens that the reader takes.

  Key theorems: `Parser.expression_derives`,
  `Parser.simple_derives`, `Parser.statement_derives`,
  `Parser.script_derives`.
-/

namespace Pep9

open List Result

variable {e left : Expr} {middle us : List Token} {start : Token}

namespace Script

/- Places are the expressions that can be assigned to. -/
theorem Expr.place?_eq_some {place : Place} :
    e.place? = some place ↔ e = place.toExpr := by
  cases e <;> cases place <;> simp [Expr.place?, Place.toExpr]

namespace Parser

open Grammar
open Phrase (Derives)

variable {kind : Kind} {ts tokens rest : List Token} {token : Token}

theorem comparison?_eq_some {op : Comparison} :
    comparison? kind = some op ↔ kind = op.kind := by
  cases kind <;> cases op <;> simp [comparison?, Comparison.kind]

theorem additive?_eq_some {op : Arith} :
    additive? kind = some op ↔ (op = .add ∨ op = .sub) ∧ kind = op.kind := by
  cases kind <;> cases op <;> simp [additive?, Arith.kind]

theorem multiplicative?_eq_some {op : Arith} :
    multiplicative? kind = some op ↔
      (op = .mul ∨ op = .div ∨ op = .mod) ∧ kind = op.kind := by
  cases kind <;> cases op <;> simp [multiplicative?, Arith.kind]

/- A minus sign in front of an operand. -/
theorem negated_derives {sign : Token}
    (hSign : sign.kind = .minus)
    (h : Derives .unary ts e) :
    Derives .unary (sign :: ts) (negated e) := by
  cases e with
  | literal => exact .negative hSign h
  | _ => exact .negate hSign h (fun _ => nofun)

section Readers

variable {α β : Type}

@[simp]
theorem Within.here_value (value : α) :
    (Within.here value tokens).value = value := rfl

@[simp]
theorem Within.widen_value
    (w : Within α rest)
    (h : rest.length ≤ tokens.length) :
    (w.widen h).value = w.value := rfl

/- What a reader returns belongs to the tokens it takes. -/
def Reads (D : List Token → α → Prop) (tokens : List Token)
    (result : Except SyntaxFault (Parsed α tokens)) : Prop :=
  ∀ p, result = .ok p → ∃ ts, tokens = ts ++ p.rest ∧ D ts p.value

/- The same for a reader that may take no tokens. -/
def ReadsOn (D : List Token → α → Prop) (tokens : List Token)
    (result : Except SyntaxFault (Within α tokens)) : Prop :=
  ∀ w, result = .ok w → ∃ ts, tokens = ts ++ w.rest ∧ D ts w.value

/- A reader that goes on behind the tokens of its left operand. -/
def Extends (D : List Token → Expr → Prop) (left : Expr) (tokens : List Token)
    (result : Except SyntaxFault (Within Expr tokens)) : Prop :=
  ∀ before, D before left → ReadsOn (fun ts e => D (before ++ ts) e) tokens result

/- What is taken in two parts. -/
theorem split_trans
    (h : tokens = ts ++ middle)
    (hMiddle : middle = us ++ rest) :
    tokens = (ts ++ us) ++ rest := by
  rw [h, hMiddle, append_assoc]

theorem cons_trans
    (h : tokens = [token] ++ middle)
    (hMiddle : middle = us ++ rest) :
    tokens = (token :: us) ++ rest := split_trans h hMiddle

/- Reading one token takes it from the front. -/
theorem expect_eq_ok {p : Parsed Token tokens}
    (h : expect kind tokens = .ok p) :
    tokens = [p.value] ++ p.rest ∧ p.value.kind = kind := by
  unfold expect at h
  split at h
  · cases h
  · split at h
    · next hKind =>
      cases h
      exact ⟨rfl, hKind⟩
    · cases h

/- A reader that another one follows. -/
theorem Reads.andThen {D : List Token → α → Prop}
    {first : Except SyntaxFault (Parsed α tokens)}
    {next : Parsed α tokens → Except SyntaxFault β} {result : β}
    (hFirst : Reads D tokens first)
    (h : first >>= next = .ok result) :
    ∃ p ts, tokens = ts ++ p.rest ∧ D ts p.value ∧ next p = .ok result := by
  rcases seq h with ⟨p, hP, hNext⟩
  rcases hFirst p hP with ⟨ts, hTokens, hD⟩
  exact ⟨p, ts, hTokens, hD, hNext⟩

/- A single token that something follows. -/
theorem expect_andThen {next : Parsed Token tokens → Except SyntaxFault β}
    {result : β}
    (h : expect kind tokens >>= next = .ok result) :
    ∃ p : Parsed Token tokens,
      tokens = [p.value] ++ p.rest ∧ p.value.kind = kind ∧ next p = .ok result := by
  rcases seq h with ⟨p, hP, hNext⟩
  exact ⟨p, (expect_eq_ok hP).1, (expect_eq_ok hP).2, hNext⟩

variable {D : List Token → Expr → Prop}

theorem extends_here : Extends D left tokens (.ok (.here left tokens)) := by
  intro _ hBefore _ h
  cases h
  refine ⟨[], rfl, ?_⟩
  simpa using hBefore

/- A first operand and what follows it. -/
theorem reads_operands {E : List Token → Expr → Prop}
    {first : Except SyntaxFault (Parsed Expr tokens)}
    {more : Expr → (ts : List Token) → Except SyntaxFault (Within Expr ts)}
    (hAlone : ∀ ts e, E ts e → D ts e)
    (hFirst : Reads E tokens first)
    (hMore : ∀ left : Parsed Expr tokens,
        Extends D left.value left.rest (more left.value left.rest)) :
    Reads D tokens (do
      let left ← first
      let whole ← more left.value left.rest
      return whole.parsed left.shorter) := by
  intro _ h
  rcases hFirst.andThen h with ⟨left, ts, hTokens, hLeft, h₁⟩
  rcases seq h₁ with ⟨whole, hWhole, hDone⟩
  cases hDone
  rcases hMore left ts (hAlone _ _ hLeft) whole hWhole with ⟨us, hRest, hD⟩
  exact ⟨ts ++ us, split_trans hTokens hRest, hD⟩

/- An operator, its right operand and what follows. -/
theorem extends_operator {E : List Token → α → Prop} {join : α → Expr}
    {operand : Except SyntaxFault (Parsed α rest)}
    {more : Expr → (ts : List Token) → Except SyntaxFault (Within Expr ts)}
    (hJoin : ∀ ts us right, D ts left → E us right → D (ts ++ token :: us) (join right))
    (hOperand : Reads E rest operand)
    (hMore :
      ∀ right : Parsed α rest, Extends D (join right.value) right.rest
          (more (join right.value) right.rest))
    {widen : ∀ right : Parsed α rest, right.rest.length ≤ (token :: rest).length} :
    Extends D left (token :: rest) (do
      let right ← operand
      let whole ← more (join right.value) right.rest
      return whole.widen (widen right)) := by
  intro before hBefore _ h
  rcases hOperand.andThen h with ⟨right, us, hTokens, hRight, h₁⟩
  rcases seq h₁ with ⟨whole, hWhole, hDone⟩
  cases hDone
  rcases hMore right _ (hJoin before us _ hBefore hRight) whole hWhole with ⟨vs, hRest, hD⟩
  refine ⟨token :: us ++ vs, ?_, ?_⟩
  · exact split_trans (congrArg (token :: ·) hTokens) hRest
  · simpa using hD

/- Reading behind one more token, with another value. -/
theorem reads_behind {D : List Token → β → Prop} {E : List Token → α → Prop}
    {result : Except SyntaxFault (Parsed α rest)} {f : α → β}
    {hLonger : rest.length ≤ (token :: rest).length}
    (hMap : ∀ ts value, E ts value → D (token :: ts) (f value))
    (hResult : Reads E rest result) :
    Reads D (token :: rest) (do
      let p ← result
      return (p.map f).widen hLonger) := by
  intro _ h
  rcases hResult.andThen h with ⟨_, ts, hTokens, hE, hDone⟩
  cases hDone
  exact ⟨token :: ts, congrArg (token :: ·) hTokens, hMap ts _ hE⟩

end Readers

/- Comparisons, if there are any. -/
def Chained (ts : List Token) : Option Chain → Prop
  | none => ts = []
  | some chain => Derives .chain ts chain

/- Arguments and the token that closes them. -/
def Enclosed (closing : Kind) (ts : List Token) (args : List Expr) : Prop :=
  ∃ us close, ts = us ++ [close] ∧ close.kind = closing ∧ Derives .arguments us args

/- A sum with the comparisons behind it. -/
theorem comparison_reads
    (hSum : Reads (Derives .sum) tokens (sum tokens))
    (hLinks : ∀ left : Parsed Expr tokens, ReadsOn Chained left.rest (comparisons left.rest)) :
    Reads (Derives .comparison) tokens (comparison tokens) := by
  intro _ h
  rw [comparison] at h
  rcases hSum.andThen h with ⟨left, ts, hTokens, hLeft, h₁⟩
  rcases seq h₁ with ⟨links, hLinked, hDone⟩
  cases hDone
  rcases hLinks left links hLinked with ⟨us, hRest, hChain⟩
  refine ⟨ts ++ us, split_trans hTokens hRest, ?_⟩
  · rcases links with ⟨_ | chain, _, _⟩
    · rw [show us = [] from hChain, append_nil]
      exact .sum hLeft
    · exact .compare hLeft hChain

/- One comparison of a chain and those behind it. -/
theorem comparisons_reads {op : Comparison}
    (hOp : comparison? token.kind = some op)
    (hSum : Reads (Derives .sum) rest (sum rest))
    (hLinks : ∀ right : Parsed Expr rest, ReadsOn Chained right.rest (comparisons right.rest)) :
    ReadsOn Chained (token :: rest) (comparisons (token :: rest)) := by
  intro _ h
  rw [comparisons] at h
  simp only [hOp] at h
  rcases hSum.andThen h with ⟨right, ts, hTokens, hRight, h₁⟩
  rcases seq h₁ with ⟨more, hMore, hDone⟩
  cases hDone
  rcases hLinks right more hMore with ⟨us, hRest, hChain⟩
  refine ⟨token :: ts ++ us, ?_, ?_⟩
  · exact split_trans (congrArg (token :: ·) hTokens) hRest
  · have hSign := comparison?_eq_some.mp hOp
    cases hValue : more.value with
    | none =>
      rw [hValue] at hChain
      rw [show us = [] from hChain, append_nil]
      exact .last hSign hRight
    | some =>
      rw [hValue] at hChain
      exact .link hSign hRight hChain

/- A subscript and what follows it. -/
theorem suffixes_subscript_reads {base : Expr}
    (hKind : token.kind = .leftBracket)
    (hPosition : Reads (Derives .expression) rest (expression rest))
    (hMore :
      ∀ (position : Parsed Expr rest) (close : Parsed Token position.rest),
        Extends (Derives .postfixed) (.index base position.value) close.rest
          (suffixes (.index base position.value) close.rest)) :
    Extends (Derives .postfixed) base (token :: rest) (suffixes base (token :: rest)) := by
  intro _ hBefore _ h
  unfold suffixes at h
  simp only [hKind, if_true] at h
  rcases hPosition.andThen h with ⟨position, ts, hTokens, hPos, h₁⟩
  rcases expect_andThen h₁ with ⟨close, hRest, hClose, h₂⟩
  rcases seq h₂ with ⟨whole, hWhole, hDone⟩
  cases hDone
  rcases hMore position close _ (.index hBefore hKind hPos hClose) whole hWhole with ⟨us, hEnd, hD⟩
  refine ⟨token :: (ts ++ [close.value]) ++ us, ?_, ?_⟩
  · have hTaken := split_trans hTokens hRest
    exact split_trans (congrArg (token :: ·) hTaken) hEnd
  · simpa using hD

theorem arguments_none_reads :
    Reads (Enclosed (peek tokens).kind) tokens
      (arguments (peek tokens).kind tokens) := by
  intro _ h
  rw [arguments] at h
  simp only [if_true] at h
  rcases expect_andThen h with ⟨close, hTokens, hClose, hDone⟩
  cases hDone
  refine ⟨[close.value], hTokens, [], close.value, rfl, hClose, ?_⟩
  exact .noArguments

/- An argument and those behind it. -/
theorem arguments_more_reads {closing : Kind}
    (hPeek : ¬(peek tokens).kind = closing)
    (hFirst : Reads (Derives .expression) tokens (expression tokens))
    (hMore :
      ∀ (first : Parsed Expr tokens) (comma : Parsed Token first.rest),
        Reads (Enclosed closing) comma.rest (arguments closing comma.rest)) :
    Reads (Enclosed closing) tokens (arguments closing tokens) := by
  intro _ h
  rw [arguments] at h
  simp only [hPeek, if_false] at h
  rcases hFirst.andThen h with ⟨first, ts, hTokens, hRead, h₁⟩
  split at h₁
  · rcases expect_andThen h₁ with ⟨comma, hRest, hComma, h₂⟩
    rcases (hMore first comma).andThen h₂ with
      ⟨_, _, hEnd, ⟨us, close, rfl, hClose, hArgs⟩, hDone⟩
    cases hDone
    have hTaken := split_trans (split_trans hTokens hRest) hEnd
    refine ⟨_, hTaken, ts ++ comma.value :: us, close, ?_, hClose, .more hRead hComma hArgs⟩
    simp
  · rcases expect_andThen h₁ with ⟨close, hRest, hClose, hDone⟩
    cases hDone
    exact ⟨_, split_trans hTokens hRest, ts, close.value, rfl, hClose, .argument hRead⟩

theorem primary_paren_reads
    (hKind : token.kind = .leftParen)
    (hInner : Reads (Derives .expression) rest (expression rest)) :
    Reads (Derives .primary) (token :: rest) (primary (token :: rest)) := by
  intro _ h
  rw [primary] at h
  simp only [hKind] at h
  rcases hInner.andThen h with ⟨_, _, hTokens, hRead, h₁⟩
  rcases expect_andThen h₁ with ⟨_, hRest, hClose, hDone⟩
  cases hDone
  have hTaken := split_trans hTokens hRest
  exact ⟨_, congrArg (token :: ·) hTaken, .paren hKind hRead hClose⟩

/-
  Expressions and arguments as they are read. The recursion
  is that of the readers themselves.
-/
theorem expressions_derive :
    (∀ ts, Reads (Derives .expression) ts (expression ts)) ∧
    (∀ closing ts, Reads (Enclosed closing) ts (arguments closing ts)) := by
  have hAll := expression.mutual_induct
    (fun ts => Reads (Derives .expression) ts (expression ts)) (fun left ts =>
      Extends (Derives .expression) left ts (disjuncts left ts))
    (fun ts => Reads (Derives .conjunction) ts (conjunction ts))
    (fun left ts => Extends (Derives .conjunction) left ts (conjuncts left ts))
    (fun ts => Reads (Derives .negation) ts (negation ts))
    (fun ts => Reads (Derives .comparison) ts (comparison ts))
    (fun ts => ReadsOn Chained ts (comparisons ts))
    (fun ts => Reads (Derives .sum) ts (sum ts))
    (fun left ts => Extends (Derives .sum) left ts (addends left ts))
    (fun ts => Reads (Derives .product) ts (product ts))
    (fun left ts => Extends (Derives .product) left ts (factors left ts))
    (fun ts => Reads (Derives .unary) ts (unary ts))
    (fun ts => Reads (Derives .postfixed) ts (postfixed ts))
    (fun base ts => Extends (Derives .postfixed) base ts (suffixes base ts))
    (fun closing ts => Reads (Enclosed closing) ts (arguments closing ts))
    (fun ts => Reads (Derives .primary) ts (primary ts))
  have hEach := hAll ?_ ?_ ?_ ?_ ?_ ?_ ?_ ?_ ?_ ?_ ?_ ?_ ?_ ?_
    ?_ ?_ ?_ ?_ ?_ ?_ ?_ ?_ ?_ ?_ ?_ ?_ ?_ ?_ ?_ ?_ ?_ ?_ ?_ ?_ ?_ ?_ ?_ ?_ ?_ ?_ ?_ ?_ ?_
  · exact ⟨hEach.1, hEach.2.2.2.2.2.2.2.2.2.2.2.2.2.2.1⟩
  -- Disjunctions and conjunctions.
  · intro _ hFirst hMore
    rw [expression]
    exact reads_operands (fun _ _ h => .conjunction h) hFirst hMore
  · intro _
    rw [disjuncts]
    exact extends_here
  · intro _ _ _ hKind hOperand hMore
    unfold disjuncts
    simp only [hKind, if_true]
    refine extends_operator ?_ hOperand hMore
    exact fun _ _ _ hLeft hRight => .or hLeft hKind hRight
  · intro _ _ _ hKind
    unfold disjuncts
    simp only [hKind, if_false]
    exact extends_here
  · intro _ hFirst hMore
    rw [conjunction]
    exact reads_operands (fun _ _ h => .negation h) hFirst hMore
  · intro _
    rw [conjuncts]
    exact extends_here
  · intro _ _ _ hKind hOperand hMore
    unfold conjuncts
    simp only [hKind, if_true]
    refine extends_operator ?_ hOperand hMore
    exact fun _ _ _ hLeft hRight => .and hLeft hKind hRight
  · intro _ _ _ hKind
    unfold conjuncts
    simp only [hKind, if_false]
    exact extends_here
  -- Negations and comparisons.
  · intro hEmpty p h
    rw [negation] at h
    rcases hEmpty p h with ⟨ts, hTokens, hD⟩
    exact ⟨ts, hTokens, .comparison hD⟩
  · intro _ _ hKind hOperand
    unfold negation
    simp only [hKind, if_true]
    exact reads_behind (fun _ _ h => .not hKind h) hOperand
  · intro _ _ hKind hOther p h
    unfold negation at h
    simp only [hKind, if_false] at h
    rcases hOther p h with ⟨ts, hTokens, hD⟩
    exact ⟨ts, hTokens, .comparison hD⟩
  · exact fun _ hSum hLinks => comparison_reads hSum hLinks
  · intro _ h
    rw [comparisons] at h
    cases h
    exact ⟨[], rfl, rfl⟩
  · exact fun _ _ _ hOp hSum hLinks => comparisons_reads hOp hSum hLinks
  · intro _ _ hNone _ h
    unfold comparisons at h
    simp only [hNone] at h
    cases h
    exact ⟨[], rfl, rfl⟩
  -- Sums and products.
  · intro _ hFirst hMore
    rw [sum]
    exact reads_operands (fun _ _ h => .product h) hFirst hMore
  · intro _
    rw [addends]
    exact extends_here
  · intro _ _ _ _ hOp hOperand hMore
    unfold addends
    simp only [hOp]
    refine extends_operator ?_ hOperand hMore
    have hSign := additive?_eq_some.mp hOp
    exact fun _ _ _ hLeft hRight => .addend hLeft hSign.1 hSign.2 hRight
  · intro _ _ _ hNone
    unfold addends
    simp only [hNone]
    exact extends_here
  · intro _ hFirst hMore
    rw [product]
    exact reads_operands (fun _ _ h => .unary h) hFirst hMore
  · intro _
    rw [factors]
    exact extends_here
  · intro _ _ _ _ hOp hOperand hMore
    unfold factors
    simp only [hOp]
    refine extends_operator ?_ hOperand hMore
    have hSign := multiplicative?_eq_some.mp hOp
    exact fun _ _ _ hLeft hRight => .factor hLeft hSign.1 hSign.2 hRight
  · intro _ _ _ hNone
    unfold factors
    simp only [hNone]
    exact extends_here
  -- Signs.
  · intro hEmpty p h
    rw [unary] at h
    rcases hEmpty p h with ⟨ts, hTokens, hD⟩
    exact ⟨ts, hTokens, .postfixed hD⟩
  · intro _ _ hKind hOperand
    unfold unary
    simp only [hKind, if_true]
    exact reads_behind (fun _ _ h => negated_derives hKind h) hOperand
  · intro token _ _ hPlus hOperand _ h
    unfold unary at h
    simp only [hPlus, reduceCtorEq, if_false, if_true] at h
    rcases hOperand.andThen h with ⟨_, ts, hTokens, hD, hDone⟩
    cases hDone
    exact ⟨token :: ts, congrArg (token :: ·) hTokens, .plus hPlus hD⟩
  · intro _ _ hMinus hPlus hOther p h
    unfold unary at h
    simp only [hMinus, hPlus, if_false] at h
    rcases hOther p h with ⟨ts, hTokens, hD⟩
    exact ⟨ts, hTokens, .postfixed hD⟩
  -- Subscripts and calls.
  · intro _ hFirst hMore
    rw [postfixed]
    exact reads_operands (fun _ _ h => .primary h) hFirst hMore
  · intro _
    unfold suffixes
    exact extends_here
  · intro _ _ _ hKind hPosition hMore
    exact suffixes_subscript_reads hKind hPosition hMore
  · intro _ _ _ hKind _ hArgs hMore
    unfold suffixes
    simp only [hKind, reduceCtorEq, if_false, if_true]
    refine extends_operator ?_ hArgs hMore
    rintro _ _ _ hName ⟨_, _, rfl, hClose, hRead⟩
    exact .call hName hKind hRead hClose
  · intro _ _ _ _ hKind _ _ _ _ h
    unfold suffixes at h
    simp only [hKind, reduceCtorEq, if_false, if_true] at h
    cases h
  · intro _ _ _ hBracket hParen
    unfold suffixes
    simp only [hBracket, hParen, if_false]
    exact extends_here
  · intro _
    exact arguments_none_reads
  · intro _ _ hPeek hFirst hMore
    exact arguments_more_reads hPeek hFirst hMore
  -- Primary expressions.
  · intro _ h
    rw [primary] at h
    cases h
  · intro token _ hKind _ hValue _ h
    rw [primary] at h
    simp only [hKind, hValue] at h
    cases h
    exact ⟨[token], rfl, .integer hKind (Text.Numeral.readDecimal?_eq_some.mp hValue)⟩
  · intro _ _ hKind hNone _ h
    rw [primary] at h
    simp only [hKind, hNone] at h
    cases h
  · intro token _ hKind _ h
    rw [primary] at h
    simp only [hKind] at h
    cases h
    exact ⟨[token], rfl, .string hKind⟩
  · intro token _ hKind _ h
    rw [primary] at h
    simp only [hKind] at h
    cases h
    exact ⟨[token], rfl, .name hKind⟩
  · intro _ _ hKind hInner
    exact primary_paren_reads hKind hInner
  · intro _ _ hKind hElements
    rw [primary]
    simp only [hKind]
    refine reads_behind ?_ hElements
    rintro _ _ ⟨_, _, rfl, hClose, hArgs⟩
    exact .list hKind hArgs hClose
  · intro _ _ _ _ _ _ _ _ h
    rw [primary] at h
    split at h <;> contradiction

/- An expression belongs to the tokens it is read from. -/
theorem expression_derives (tokens : List Token) :
    Reads (Derives .expression) tokens (expression tokens) := expressions_derive.1 tokens

------------------------------------------------------------
-- Simple Statements
------------------------------------------------------------

theorem assignments_derive (tokens : List Token) :
    Reads (fun ts assigned => Assigned ts assigned.1 assigned.2) tokens (assignments tokens) := by
  induction tokens using assignments.induct with
  | case1 _ ih =>
    intro _ h
    rw [assignments] at h
    rcases expect_andThen h with ⟨equals, hTokens, hEquals, h₁⟩
    rcases (expression_derives equals.rest).andThen h₁ with ⟨value, _, hRest, hValue, h₂⟩
    have hTaken := split_trans hTokens hRest
    split at h₂
    · split at h₂
      · next place hPlace =>
        rcases (ih equals value).andThen h₂ with ⟨_, _, hEnd, hMore, hDone⟩
        cases hDone
        rw [Expr.place?_eq_some.mp hPlace] at hValue
        exact ⟨_, split_trans hTaken hEnd, .target hEquals hValue hMore⟩
      · cases h₂
    · cases h₂
      exact ⟨_, hTaken, .value hEquals hValue⟩

/- What follows the first expression of a statement. -/
def Finishes (start : Token) (first : Expr) (us : List Token) (stmt : Stmt) : Prop :=
  ∀ ts, Derives .expression (start :: ts) first → Simple (start :: ts ++ us) stmt

theorem augmentation_derives
    (op : Augment)
    {target : Expr} :
    Reads (Finishes start target) tokens (augmentation op op.kind start target tokens) := by
  intro _ h
  unfold augmentation at h
  rcases expect_andThen h with ⟨sign, hTokens, hSign, h₁⟩
  split at h₁
  · cases h₁
  · next place hPlace =>
    rcases (expression_derives sign.rest).andThen h₁ with ⟨_, _, hRest, hValue, hDone⟩
    cases hDone
    refine ⟨_, split_trans hTokens hRest, fun ts hTarget => ?_⟩
    rw [Expr.place?_eq_some.mp hPlace] at hTarget
    exact .augment hTarget hSign hValue

theorem afterExpression_derives {first : Expr} :
    ReadsOn (Finishes start first) tokens (afterExpression start first tokens) := by
  intro _ h
  unfold afterExpression at h
  split at h
  · rcases (assignments_derive tokens).andThen h with ⟨_, us, hTokens, hAssigned, h₁⟩
    split at h₁
    · next place hPlace =>
      cases h₁
      refine ⟨us, hTokens, fun ts hFirst => ?_⟩
      rw [Expr.place?_eq_some.mp hPlace] at hFirst
      exact .assign hFirst hAssigned
    · cases h₁
  · rcases (augmentation_derives .add).andThen h with ⟨_, us, hTokens, hStmt, hDone⟩
    cases hDone
    exact ⟨us, hTokens, hStmt⟩
  · rcases (augmentation_derives .sub).andThen h with ⟨_, us, hTokens, hStmt, hDone⟩
    cases hDone
    exact ⟨us, hTokens, hStmt⟩
  · cases h
    refine ⟨[], rfl, fun ts hFirst => ?_⟩
    rw [append_nil]
    exact .expr hFirst

/- A statement that is a single word. -/
theorem word_derives {make : Int → Stmt}
    (hMake : ∀ word : Token, word.kind = kind → Simple [word] (make word.line)) :
    Reads Simple tokens (do
      let word ← expect kind tokens
      return word.map fun _ => make (peek tokens).line) := by
  intro _ h
  rcases expect_andThen h with ⟨word, hTokens, hWord, hDone⟩
  cases hDone
  have hStart : peek tokens = word.value := congrArg peek hTokens
  refine ⟨_, hTokens, ?_⟩
  have hSimple := hMake word.value hWord
  rwa [← hStart] at hSimple ⊢

theorem simple_derives (tokens : List Token) :
    Reads Simple tokens (simple tokens) := by
  intro p h
  unfold simple at h
  dsimp only at h
  split at h
  · exact word_derives (fun _ => .pass) p h
  · exact word_derives (fun _ => .breakLoop) p h
  · exact word_derives (fun _ => .continueLoop) p h
  · rcases expect_andThen h with ⟨word, hTokens, hWord, h₁⟩
    have hStart : peek tokens = word.value := congrArg peek hTokens
    split at h₁
    · cases h₁
      refine ⟨_, hTokens, ?_⟩
      rw [← hStart] at hWord ⊢
      exact .ret hWord
    · rcases (expression_derives word.rest).andThen h₁ with ⟨_, _, hRest, hValue, hDone⟩
      cases hDone
      refine ⟨_, split_trans hTokens hRest, ?_⟩
      rw [← hStart] at hWord ⊢
      exact .retValue hWord hValue
  · rcases (expression_derives tokens).andThen h with ⟨_, _, hTokens, hFirst, h₁⟩
    rcases seq h₁ with ⟨whole, hWhole, hDone⟩
    cases hDone
    rcases afterExpression_derives whole hWhole with ⟨_, hRest, hFinishes⟩
    rcases hFirst.eq_cons with ⟨start, more, rfl⟩
    have hStart : peek tokens = start := congrArg peek hTokens
    rw [hStart] at hFinishes
    exact ⟨_, split_trans hTokens hRest, hFinishes more hFirst⟩

/-
  What a reader of lines returns. A last line without its
  NEWLINE is followed by the end of the input.
-/
def ReadsLines {α : Type} (D : Bool → List Token → α → Prop) (tokens : List Token)
    (result : Except SyntaxFault (Parsed α tokens)) : Prop :=
  ∀ p, result = .ok p → ∃ closed ts, tokens = ts ++ p.rest ∧ D closed ts p.value ∧
      (closed = false → (peek p.rest).kind = .eof)

theorem endOfLine_eq_ok {w : Within Unit tokens}
    (h : endOfLine tokens = .ok w) :
    ∃ closed ts, tokens = ts ++ w.rest ∧ LineEnd closed ts ∧
      (closed = false → (peek w.rest).kind = .eof) := by
  unfold endOfLine at h
  split at h
  · next hEnd =>
    cases h
    exact ⟨false, [], rfl, .missing, fun _ => hEnd⟩
  · rcases expect_andThen h with ⟨_, hTokens, hNewline, hDone⟩
    cases hDone
    exact ⟨true, _, hTokens, .newline hNewline, nofun⟩

/- Parameters that are distinct and new, and their parenthesis. -/
def Declared (seen : List String) (ts : List Token) (params : List String) : Prop :=
  (∃ us close, ts = us ++ [close] ∧ close.kind = .rightParen ∧ Parameters us params) ∧
    params.Nodup ∧ ∀ p ∈ params, p ∉ seen

/- Parameters are distinct, and none of them seen before. -/
theorem parameters_derive
    (function : String)
    (seen : List String)
    (tokens : List Token) :
    Reads (Declared seen) tokens (parameters function seen tokens) := by
  induction seen, tokens using parameters.induct with
  | case1 _ _ hClose =>
    intro _ h
    rw [parameters] at h
    simp only [hClose, if_true] at h
    rcases expect_andThen h with ⟨close, hTokens, hClose, hDone⟩
    cases hDone
    refine ⟨_, hTokens, ⟨[], close.value, rfl, hClose, .none⟩, ?_⟩
    exact ⟨nodup_nil, forall_mem_nil _⟩
  | case2 _ _ hOpen ih =>
    intro _ h
    rw [parameters] at h
    simp only [hOpen, if_false] at h
    rcases expect_andThen h with ⟨param, hTokens, hParam, h₁⟩
    split at h₁
    · cases h₁
    · next hUnseen =>
      split at h₁
      · rcases expect_andThen h₁ with ⟨comma, hRest, hComma, h₂⟩
        rcases (ih param comma).andThen h₂ with ⟨_, _, hEnd, ⟨⟨us, close, rfl, hClose, hMore⟩,
            hNodup, hNew⟩, hDone⟩
        cases hDone
        have hTaken := split_trans (split_trans hTokens hRest) hEnd
        refine ⟨_, hTaken, ⟨param.value :: comma.value :: us, close,
          rfl, hClose, .more hParam hComma hMore⟩, ?_, ?_⟩
        · refine nodup_cons.mpr ⟨fun hMem => ?_, hNodup⟩
          exact hNew _ hMem mem_cons_self
        · refine forall_mem_cons.mpr ⟨hUnseen, ?_⟩
          intro other hOther hSeen
          exact hNew other hOther (mem_cons_of_mem _ hSeen)
      · rcases expect_andThen h₁ with ⟨close, hRest, hClose, hDone⟩
        cases hDone
        refine ⟨_, split_trans hTokens hRest, ⟨[param.value],
          close.value, rfl, hClose, .one hParam⟩, ?_, ?_⟩
        · exact pairwise_singleton _ _
        · exact forall_mem_singleton.mpr hUnseen

/- A reader of lines that another reader follows. -/
theorem ReadsLines.andThen {α β : Type} {D : Bool → List Token → α → Prop}
    {first : Except SyntaxFault (Parsed α tokens)}
    {next : Parsed α tokens → Except SyntaxFault β} {result : β}
    (hFirst : ReadsLines D tokens first)
    (h : first >>= next = .ok result) :
    ∃ p closed ts, tokens = ts ++ p.rest ∧ D closed ts p.value ∧
      (closed = false → (peek p.rest).kind = .eof) ∧ next p = .ok result := by
  rcases seq h with ⟨p, hP, hNext⟩
  rcases hFirst p hP with ⟨closed, ts, hTokens, hD, hEnd⟩
  exact ⟨p, closed, ts, hTokens, hD, hEnd, hNext⟩

/- The kinds of statements and blocks that are read. -/
abbrev Statements (closed : Bool) : List Token → Stmt → Prop :=
  Clause.Derives (.statement closed)

abbrev Blocks (closed : Bool) : List Token → List Stmt → Prop :=
  Clause.Derives (.block closed)

/- Statements and the end of their block. -/
def Indented (ts : List Token) (body : List Stmt) : Prop :=
  ∃ us dedent, ts = us ++ [dedent] ∧ dedent.kind = .dedent ∧ Clause.Derives .suite us body

/- What starts with the statements of a block is not at an end. -/
theorem Indented.peek_ne {body : List Stmt}
    (h : Indented ts body)
    (rest : List Token) :
    (peek (ts ++ rest)).kind ≠ .eof := by
  rcases h with ⟨us, dedent, rfl, hDedent, hSuite⟩
  cases us with
  | nil =>
    change dedent.kind ≠ .eof
    rw [hDedent]
    decide
  | cons => exact (noEnd_cons.mp hSuite.noEnd).1

theorem statement_loop_reads
    (hKind : (peek tokens).kind = .kwWhile)
    (hBlock :
      ∀ (word : Parsed Token tokens) (test : Parsed Expr word.rest),
        ReadsLines Blocks test.rest (block test.rest)) :
    ReadsLines Statements tokens (statement tokens) := by
  intro _ h
  rw [statement] at h
  simp only [hKind] at h
  rcases expect_andThen h with ⟨word, hTokens, hWord, h₁⟩
  have hStart : peek tokens = word.value := congrArg peek hTokens
  rcases (expression_derives word.rest).andThen h₁ with ⟨test, _, hRest, hTest, h₂⟩
  rcases (hBlock word test).andThen h₂ with ⟨_, closed, _, hRest₁, hBody, hEnd, hDone⟩
  cases hDone
  have hTaken := cons_trans hTokens (split_trans hRest hRest₁)
  refine ⟨closed, _, hTaken, ?_, hEnd⟩
  rw [← hStart] at hWord ⊢
  exact .loop hWord hTest hBody

theorem statement_each_reads
    (hKind : (peek tokens).kind = .kwFor)
    (hBlock :
      ∀ (word : Parsed Token tokens) (target : Parsed Token word.rest)
        (link : Parsed Token target.rest) (source : Parsed Expr link.rest),
        ReadsLines Blocks source.rest (block source.rest)) :
    ReadsLines Statements tokens (statement tokens) := by
  intro _ h
  rw [statement] at h
  simp only [hKind] at h
  rcases expect_andThen h with ⟨word, hTokens, hWord, h₁⟩
  have hStart : peek tokens = word.value := congrArg peek hTokens
  rcases expect_andThen h₁ with ⟨target, hRest₁, hTarget, h₂⟩
  rcases expect_andThen h₂ with ⟨link, hRest₂, hLink, h₃⟩
  rcases (expression_derives link.rest).andThen h₃ with ⟨source, _, hRest₃, hSource, h₄⟩
  rcases (hBlock word target link source).andThen h₄ with
    ⟨_, closed, _, hRest₄, hBody, hEnd, hDone⟩
  cases hDone
  have hTaken := cons_trans hTokens (cons_trans hRest₁
    (cons_trans hRest₂ (split_trans hRest₃ hRest₄)))
  refine ⟨closed, _, hTaken, ?_, hEnd⟩
  rw [← hStart] at hWord ⊢
  exact .each hWord hTarget hLink hSource hBody

theorem statement_define_reads
    (hKind : (peek tokens).kind = .kwDef)
    (hBlock :
      ∀ (word : Parsed Token tokens) (name : Parsed Token word.rest)
        (paren : Parsed Token name.rest) (params : Parsed (List String) paren.rest),
        ReadsLines Blocks params.rest (block params.rest)) :
    ReadsLines Statements tokens (statement tokens) := by
  intro _ h
  rw [statement] at h
  simp only [hKind] at h
  rcases expect_andThen h with ⟨word, hTokens, hWord, h₁⟩
  have hStart : peek tokens = word.value := congrArg peek hTokens
  rcases expect_andThen h₁ with ⟨name, hRest₁, hName, h₂⟩
  rcases expect_andThen h₂ with ⟨paren, hRest₂, hParen, h₃⟩
  rcases (parameters_derive name.value.lexeme [] paren.rest).andThen h₃
    with ⟨params, _, hRest₃, ⟨⟨_, _, rfl, hClose, hParams⟩, hDistinct, _⟩, h₄⟩
  rcases (hBlock word name paren params).andThen h₄ with
    ⟨_, closed, _, hRest₄, hBody, hEnd, hDone⟩
  cases hDone
  rw [append_assoc] at hRest₃
  have hTaken := cons_trans hTokens (cons_trans hRest₁
    (cons_trans hRest₂ (split_trans hRest₃ (cons_trans rfl hRest₄))))
  refine ⟨closed, _, hTaken, ?_, hEnd⟩
  rw [← hStart] at hWord ⊢
  exact .define hWord hName hParen hParams hDistinct hClose hBody

/- What follows the first word of a conditional. -/
theorem conditional_reads {line : Int}
    (hBlock : ∀ test : Parsed Expr tokens, ReadsLines Blocks test.rest (block test.rest))
    (hElif : ∀ (test : Parsed Expr tokens)
        (body : Parsed (List Stmt) test.rest) (word : Parsed Token body.rest), ReadsLines
          (fun closed =>
            Clause.Derives (.branches word.value.line closed))
          word.rest (conditional word.value.line word.rest))
    (hElse : ∀ (test : Parsed Expr tokens) (body : Parsed (List Stmt) test.rest)
        (word : Parsed Token body.rest), ReadsLines Blocks word.rest (block word.rest)) :
    ReadsLines (fun closed => Clause.Derives (.branches line closed))
      tokens (conditional line tokens) := by
  intro _ h
  rw [conditional] at h
  rcases (expression_derives tokens).andThen h with ⟨test, _, hTokens, hTest, h₁⟩
  rcases (hBlock test).andThen h₁ with ⟨body, closed, _, hRest, hBody, hEnd, h₂⟩
  -- A branch that follows shows that the body was closed.
  have hClosed {kind : Kind} (hKind : (peek body.rest).kind = kind)
      (hNot : kind ≠ .eof) : closed = true := by
    cases closed with
    | true => rfl
    | false => exact absurd (hKind.symm.trans (hEnd rfl)) hNot
  dsimp only at h₂
  split at h₂
  · next hKind =>
    rcases expect_andThen h₂ with ⟨word, hRest₁, hWord, h₃⟩
    rcases (hElif test body word).andThen h₃ with ⟨_, last, _, hRest₂, hNested, hLast, hDone⟩
    cases hDone
    rw [hClosed hKind (by decide)] at hBody
    have hTaken := split_trans hTokens (split_trans hRest (cons_trans hRest₁ hRest₂))
    exact ⟨last, _, hTaken, .elif hTest hBody hWord hNested, hLast⟩
  · next hKind =>
    rcases expect_andThen h₂ with ⟨word, hRest₁, hWord, h₃⟩
    rcases (hElse test body word).andThen h₃ with ⟨_, last, _, hRest₂, hOrElse, hLast, hDone⟩
    cases hDone
    rw [hClosed hKind (by decide)] at hBody
    have hTaken := split_trans hTokens (split_trans hRest (cons_trans hRest₁ hRest₂))
    exact ⟨last, _, hTaken, .orElse hTest hBody hWord hOrElse, hLast⟩
  · cases h₂
    exact ⟨closed, _, split_trans hTokens hRest, .only hTest hBody, hEnd⟩

theorem block_reads
    (hStatements : ∀ (colon : Parsed Token tokens)
        (newline : Parsed Token colon.rest) (indent : Parsed Token newline.rest),
        Reads Indented indent.rest (statements indent.rest)) :
    ReadsLines Blocks tokens (block tokens) := by
  intro _ h
  rw [block] at h
  rcases expect_andThen h with ⟨colon, hTokens, hColon, h₁⟩
  split at h₁
  · rcases expect_andThen h₁ with ⟨newline, hRest₁, hNewline, h₂⟩
    rcases expect_andThen h₂ with ⟨indent, hRest₂, hIndent, h₃⟩
    rcases (hStatements colon newline indent).andThen h₃ with
      ⟨_, _, hRest₃, ⟨_, _, rfl, hDedent, hBody⟩, hDone⟩
    cases hDone
    have hTaken := cons_trans hTokens (cons_trans hRest₁ (cons_trans hRest₂ hRest₃))
    exact ⟨true, _, hTaken, .indented hColon hNewline hIndent hBody hDedent, nofun⟩
  · rcases (simple_derives colon.rest).andThen h₁ with ⟨_, _, hRest₁, hStmt, h₂⟩
    rcases seq h₂ with ⟨_, hLine, hDone⟩
    cases hDone
    rcases endOfLine_eq_ok hLine with ⟨closed, _, hRest₂, hLineEnd, hEnd⟩
    have hTaken := cons_trans hTokens (split_trans hRest₁ hRest₂)
    exact ⟨closed, _, hTaken, .line hColon hStmt hLineEnd, hEnd⟩

/- A statement in front of the others of its block. -/
theorem statements_more_reads
    (hOpen : ¬((peek tokens).kind = .dedent ∨ (peek tokens).kind = .eof))
    (hFirst : ReadsLines Statements tokens (statement tokens))
    (hMore : ∀ stmt : Parsed Stmt tokens, Reads Indented stmt.rest (statements stmt.rest)) :
    Reads Indented tokens (statements tokens) := by
  intro _ h
  rw [statements] at h
  simp only [hOpen, if_false] at h
  rcases hFirst.andThen h with ⟨stmt, closed, ts, hTokens, hStmt, hEnd, h₁⟩
  rcases (hMore stmt).andThen h₁ with ⟨more, _, hRest, hIndented, hDone⟩
  cases hDone
  have hClosed : closed = true := by
    cases closed with
    | true => rfl
    | false =>
      have hPeek := congrArg (fun ts => (peek ts).kind) hRest
      exact absurd (hPeek.symm.trans (hEnd rfl)) (hIndented.peek_ne more.rest)
  subst hClosed
  rcases hIndented with ⟨us, dedent, rfl, hDedent, hBody⟩
  refine ⟨_, split_trans hTokens hRest, ts ++ us, dedent, ?_, hDedent, .next hStmt hBody⟩
  rw [append_assoc]

/- What is read as a statement derives from its tokens. -/
theorem statement_derives (tokens : List Token) :
    ReadsLines Statements tokens (statement tokens) := by
  have hAll := statement.mutual_induct (fun ts => ReadsLines Statements ts (statement ts))
    (fun ts => ReadsLines Blocks ts (block ts)) (fun ts => Reads Indented ts (statements ts))
    (fun line ts =>
      ReadsLines (fun closed => Clause.Derives (.branches line closed)) ts (conditional line ts))
  refine (hAll ?_ ?_ ?_ ?_ ?_ ?_ ?_ ?_ ?_ ?_ ?_ ?_).1 tokens
  · intro tokens start hKind ih _ h
    rw [statement] at h
    simp only [start] at hKind
    simp only [hKind] at h
    rcases expect_andThen h with ⟨word, hTokens, hWord, h₁⟩
    have hStart : peek tokens = word.value := congrArg peek hTokens
    rcases (ih word).andThen h₁ with ⟨_, closed, _, hRest, hStmt, hEnd, hDone⟩
    cases hDone
    refine ⟨closed, _, cons_trans hTokens hRest, ?_, hEnd⟩
    rw [← hStart] at hWord ⊢
    exact .conditional hWord hStmt
  · intro _ _ hKind ih
    exact statement_loop_reads hKind ih
  · intro _ _ hKind ih
    exact statement_each_reads hKind ih
  · intro _ _ hKind ih
    exact statement_define_reads hKind ih
  -- Three kinds of tokens start no statement.
  iterate 3
    · intro _ start hKind _ h
      rw [statement] at h
      simp only [start] at hKind
      simp only [hKind] at h
      cases h
  · intro tokens _ _ _ _ _ _ _ _ _ h
    rw [statement] at h
    dsimp only at h
    split at h <;> try contradiction
    rcases (simple_derives tokens).andThen h with ⟨_, _, hTokens, hStmt, h₁⟩
    rcases seq h₁ with ⟨_, hLine, hDone⟩
    cases hDone
    rcases endOfLine_eq_ok hLine with ⟨closed, _, hRest, hLineEnd, hEnd⟩
    exact ⟨closed, _, split_trans hTokens hRest, .simple hStmt hLineEnd, hEnd⟩
  · intro _ ih
    exact block_reads ih
  · intro _ hEnd _ h
    rw [statements] at h
    simp only [hEnd, if_true] at h
    rcases expect_andThen h with ⟨close, hTokens, hClose, hDone⟩
    cases hDone
    exact ⟨_, hTokens, [], close.value, rfl, hClose, .done⟩
  · intro _ hOpen hFirst hMore
    exact statements_more_reads hOpen hFirst hMore
  · intro _ _ hBody hElif hElse
    exact conditional_reads hBody hElif hElse

------------------------------------------------------------
-- Whole Scripts
------------------------------------------------------------

/- At the end of the input nothing more is read. -/
theorem script_at_end (h : (peek tokens).kind = .eof) :
    script tokens = .ok [] := by
  cases tokens with
  | nil => rw [script]
  | cons token =>
    change token.kind = .eof at h
    rw [script]
    simp only [h, if_true]

/- A script belongs to the tokens before the end of the input. -/
theorem script_derives {stmts : List Stmt}
    (h : script tokens = .ok stmts) :
    ∃ ts rest, tokens = ts ++ rest ∧ (peek rest).kind = .eof ∧ Program ts stmts := by
  induction tokens using script.induct generalizing stmts with
  | case1 =>
    rw [script] at h
    cases h
    exact ⟨[], [], rfl, rfl, .empty⟩
  | case2 token rest hEnd =>
    rw [script] at h
    simp only [hEnd, if_true] at h
    cases h
    exact ⟨[], token :: rest, rfl, hEnd, .empty⟩
  | case3 token _ _ hBlank ih =>
    rw [script] at h
    simp only [hBlank, reduceCtorEq, if_false, if_true] at h
    rcases ih h with ⟨ts, final, rfl, hPeek, hProgram⟩
    exact ⟨token :: ts, final, rfl, hPeek, .blank hBlank hProgram⟩
  | case4 token rest hEnd hBlank ih =>
    rw [script] at h
    simp only [hEnd, hBlank, if_false] at h
    rcases (statement_derives (token :: rest)).andThen h with
      ⟨stmt, closed, ts, hTokens, hStmt, hLast, h₁⟩
    rcases seq h₁ with ⟨_, hMore, hDone⟩
    cases hDone
    cases closed with
    | true =>
      rcases ih stmt hMore with ⟨us, final, hRest, hPeek, hProgram⟩
      exact ⟨ts ++ us, final, split_trans hTokens hRest, hPeek, .next hStmt hProgram⟩
    | false =>
      rw [script_at_end (hLast rfl)] at hMore
      cases hMore
      exact ⟨ts, stmt.rest, hTokens, hLast rfl, .last hStmt⟩

end Parser

end Script

end Pep9
