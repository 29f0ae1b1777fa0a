import Pep9.Proofs.Script.Exactness
import Pep9.Proofs.Script.Lexing

/-
  Printed expressions. The text of an expression of names,
  integers, operators and subscripts is read as that
  expression again.

  Key theorems: `written_of_printable`, `lex_line`,
  `parseSource_describe`.
-/

namespace Pep9

open List

namespace Script

open Grammar.Phrase (Derives)
open Lexer (Begins Lexes onFirstLine)

mutual

/-
  Expressions whose text says what they are: names, integers
  other than the least one, operators and subscripts. A minus
  sign in front of an integer would become part of it, and a
  subscript behind a negative integer part of its operand.
-/
def Expr.Printable : Expr → Prop
  | .literal value => value.toInt.natAbs ≤ 2 ^ 63 - 1
  | .string _ => False
  | .list _ => False
  | .name id => IsIdentifier id
  | .arith _ left right => left.Printable ∧ right.Printable
  | .compare left chain => left.Printable ∧ chain.Printable
  | .logic _ left right => left.Printable ∧ right.Printable
  | .unary .not operand => operand.Printable
  | .unary .negate operand => (∀ value, operand ≠ .literal value) ∧ operand.Printable
  | .call _ _ => False
  | .index base position =>
    (∀ value, base = .literal value → 0 ≤ value.toInt) ∧ base.Printable ∧ position.Printable

/- Chains of comparisons of such expressions. -/
def Chain.Printable : Chain → Prop
  | .last _ right => right.Printable
  | .link _ right rest => right.Printable ∧ rest.Printable

end

/- Tokens that a text is cut into and that derive a tree. -/
structure Written (cs : List Char) (ts : List Token) (e : Expr) : Prop where
  begins : ∃ c rest, cs = c :: rest ∧ Begins c
  lexes : Lexes cs ts
  lines : ∀ t ∈ ts, t.line = 1
  unary : Derives .unary ts e
  postfixed : (∀ value, e = .literal value → 0 ≤ value.toInt) → Derives .postfixed ts e

namespace Written

variable {cs : List Char} {ts : List Token} {e : Expr}

section

variable (h : Written cs ts e)
include h

theorem product : Derives .product ts e := .unary h.unary

theorem sum : Derives .sum ts e := .product h.product

theorem negation : Derives .negation ts e := .comparison (.sum h.sum)

theorem conjunction : Derives .conjunction ts e := .negation h.negation

theorem expression : Derives .expression ts e :=
  .conjunction h.conjunction

end

/- What is no negative integer. -/
theorem ofPostfixed
    (hBegins : ∃ c rest, cs = c :: rest ∧ Begins c)
    (hLexes : Lexes cs ts)
    (hLines : ∀ t ∈ ts, t.line = 1)
    (h : Derives .postfixed ts e) :
    Written cs ts e := ⟨hBegins, hLexes, hLines, .postfixed h, fun _ => h⟩

theorem paren
    (hLexes : Lexes cs ts)
    (hLines : ∀ t ∈ ts, t.line = 1)
    (h : Derives .expression ts e) :
    Written ('(' :: (cs ++ [')'])) (onFirstLine .leftParen "(" ::
        (ts ++ [onFirstLine .rightParen ")"])) e := by
  refine ofPostfixed ⟨_, _, rfl, .inl rfl⟩ hLexes.paren ?_ (.primary (.paren rfl h rfl))
  simp only [forall_mem_cons, forall_mem_append]
  exact ⟨rfl, hLines, rfl, forall_mem_nil _⟩

end Written

variable {ts : List Token} {cs : List Char}

/- The lines of two operands and their operator. -/
theorem lines_binary {us : List Token} {kind : Kind} {lexeme : String}
    (hLeft : ∀ t ∈ ts, t.line = 1)
    (hRight : ∀ t ∈ us, t.line = 1) :
    ∀ t ∈ ts ++ onFirstLine kind lexeme :: us, t.line = 1 := by
  simp only [forall_mem_append, forall_mem_cons]
  exact ⟨hLeft, rfl, hRight⟩

/- A number is written in decimal, with a minus sign if any. -/
theorem written_literal {value : Int64}
    (h : value.toInt.natAbs ≤ 2 ^ 63 - 1) :
    ∃ ts, Written (toString value).toList ts (.literal value) := by
  have hDigits (n : Nat) : ∀ c ∈ Nat.toDigits 10 n, c.isDigit = true :=
    fun _ => Text.Numeral.isDigit_of_mem
  rcases Text.Numeral.numeral_chars value with ⟨n, hInt, hChars⟩ | ⟨n, _, hInt, hChars⟩
  · have hValue := Text.Numeral.isDecimal_toDigits hInt
    have hAll := hDigits n
    rw [hChars]
    cases hCons : Nat.toDigits 10 n with
    | nil => exact absurd hCons Nat.toDigits_ne_nil
    | cons c rest =>
      rw [hCons] at hValue hAll
      have hFirst : Lexer.isWordChar c = true := by
        rw [Lexer.isWordChar, hAll c mem_cons_self, Bool.or_true]
      refine ⟨_, .ofPostfixed ⟨c, rest, rfl, .inr (.inr hFirst)⟩
        (Lexes.number hAll) ?_ (.primary (.integer rfl hValue))⟩
      exact forall_mem_singleton.mpr rfl
  · have hAbs : (Int64.ofInt n).toInt = n := Int64.toInt_ofInt_of_le (by omega) (by omega)
    have hNegated : -Int64.ofInt n = value := by
      rw [← Int64.ofInt_neg, ← hInt, Int64.ofInt_toInt]
    have hValue := Text.Numeral.isDecimal_toDigits hAbs
    have hAll := hDigits n
    rw [hChars]
    cases hCons : Nat.toDigits 10 n with
    | nil => exact absurd hCons Nat.toDigits_ne_nil
    | cons =>
      rw [hCons] at hValue hAll
      refine ⟨_, ⟨_, _, rfl, .inr (.inl rfl)⟩, Lexes.negative hAll, ?_, ?_, ?_⟩
      · simp [onFirstLine]
      · rw [← hNegated]
        exact .negative rfl (.postfixed (.primary (.integer rfl hValue)))
      · intro hSign
        have := hSign value rfl
        omega

/- A name is a word that is no keyword. -/
theorem written_name {id : String}
    (h : IsIdentifier id) :
    ∃ ts, Written id.toList ts (.name id) := by
  rcases h.first with ⟨c, rest, hCons, hStart⟩
  have hChars := h.chars
  rw [hCons, forall_mem_cons] at hChars
  have hLexes := Lexes.word hCons hStart (all_eq_true.mpr hChars.2)
  rw [h.notKeyword] at hLexes
  refine ⟨_, .ofPostfixed ⟨c, rest, hCons, .inr (.inr hChars.1)⟩ hLexes ?_ (.primary (.name rfl))⟩
  exact forall_mem_singleton.mpr rfl

section

variable {ds : List Char} {us : List Token} {left right : Expr}
  (hLeft : Written cs ts left) (hRight : Written ds us right)
include hLeft hRight

theorem written_arith {op : Arith} :
    Derives .sum (ts ++ onFirstLine op.kind op.symbol :: us) (.arith op left right) := by
  have hSum (h : op = .add ∨ op = .sub) :=
    Derives.addend hLeft.sum h (rfl : (onFirstLine op.kind op.symbol).kind = op.kind)
      hRight.product
  have hProduct (h : op = .mul ∨ op = .div ∨ op = .mod) :=
    Derives.product (.factor hLeft.product h
      (rfl : (onFirstLine op.kind op.symbol).kind = op.kind) hRight.unary)
  cases op with
  | add => exact hSum (.inl rfl)
  | sub => exact hSum (.inr rfl)
  | mul => exact hProduct (.inl rfl)
  | div => exact hProduct (.inr (.inl rfl))
  | mod => exact hProduct (.inr (.inr rfl))

theorem written_logic {op : Logic} :
    Derives .expression (ts ++ onFirstLine op.kind op.symbol :: us)
      (.logic op left right) := by
  cases op with
  | and => exact .conjunction (.and hLeft.conjunction rfl hRight.negation)
  | or => exact .or hLeft.expression rfl hRight.conjunction

end

/- The texts of operators and their operands. -/
theorem toList_binary (left symbol right : String) :
    ("(" ++ left ++ " " ++ symbol ++ " " ++ right ++ ")").toList =
      '(' :: ((left.toList ++ ' ' :: (symbol.toList ++ ' ' :: right.toList)) ++ [')']) := by
  simp

theorem toList_unary (symbol operand : String) :
    ("(" ++ symbol ++ " " ++ operand ++ ")").toList =
      '(' :: ((symbol.toList ++ ' ' :: operand.toList) ++ [')']) := by
  simp

/- The comparisons behind a first operand. -/
structure WrittenChain (cs : List Char) (us : List Token) (chain : Chain) : Prop where
  lexes : ∀ ds ts, Lexes ds ts → Lexes (ds ++ cs) (ts ++ us)
  lines : ∀ t ∈ us, t.line = 1
  chain : Derives .chain us chain

mutual

/-
  The text of an expression is cut into tokens that derive
  the expression.
-/
theorem written_of_printable :
    (e : Expr) → e.Printable → ∃ ts, Written e.describe.toList ts e
  | .literal _, h => written_literal h
  | .name _, h => written_name h
  | .arith op left right, h => by
      rcases written_of_printable left h.1 with ⟨_, hLeft⟩
      rcases written_of_printable right h.2 with ⟨_, hRight⟩
      have hText : (Expr.arith op left right).describe.toList =
          '(' :: ((left.describe.toList ++ ' ' :: (op.symbol.toList ++
            ' ' :: right.describe.toList)) ++ [')']) := toList_binary _ _ _
      rw [hText]
      exact ⟨_, .paren (hLeft.lexes.binary (Lexes.arith op) hRight.lexes)
        (lines_binary hLeft.lines hRight.lines) (.conjunction (.negation (.comparison
          (.sum (written_arith hLeft hRight)))))⟩
  | .compare left chain, h => by
      rcases written_of_printable left h.1 with ⟨_, hLeft⟩
      rcases chained_of_printable chain h.2 with ⟨_, hChain⟩
      have hText : (Expr.compare left chain).describe.toList =
          '(' :: ((left.describe.toList ++ chain.describe.toList) ++ [')']) := by
        change ("(" ++ left.describe ++ chain.describe ++ ")").toList = _
        simp
      rw [hText]
      exact ⟨_, .paren (hChain.lexes _ _ hLeft.lexes)
        (forall_mem_append.mpr ⟨hLeft.lines, hChain.lines⟩)
        (.conjunction (.negation (.comparison (.compare hLeft.sum hChain.chain))))⟩
  | .logic op left right, h => by
      rcases written_of_printable left h.1 with ⟨_, hLeft⟩
      rcases written_of_printable right h.2 with ⟨_, hRight⟩
      have hText : (Expr.logic op left right).describe.toList =
          '(' :: ((left.describe.toList ++ ' ' :: (op.symbol.toList ++
            ' ' :: right.describe.toList)) ++ [')']) := toList_binary _ _ _
      rw [hText]
      exact ⟨_, .paren (hLeft.lexes.binary (Lexes.logic op) hRight.lexes)
        (lines_binary hLeft.lines hRight.lines) (written_logic hLeft hRight)⟩
  | .unary .not operand, h => by
      rcases written_of_printable operand h with ⟨_, hOperand⟩
      have hText : (Expr.unary .not operand).describe.toList =
          '(' :: (("not".toList ++ ' ' :: operand.describe.toList) ++ [')']) := toList_unary _ _
      have hWord : Lexes "not".toList [onFirstLine .kwNot "not"] := Lexes.word rfl rfl rfl
      rw [hText]
      exact ⟨_, .paren (hWord.space hOperand.lexes) (forall_mem_cons.mpr ⟨rfl, hOperand.lines⟩)
        (.conjunction (.negation (.not rfl hOperand.negation)))⟩
  | .unary .negate operand, h => by
      rcases written_of_printable operand h.2 with ⟨_, hOperand⟩
      have hText : (Expr.unary .negate operand).describe.toList =
          '(' :: (("-".toList ++ ' ' :: operand.describe.toList) ++ [')']) := toList_unary _ _
      rw [hText]
      exact ⟨_, .paren ((Lexes.arith .sub).space hOperand.lexes)
        (forall_mem_cons.mpr ⟨rfl, hOperand.lines⟩)
        (.conjunction (.negation (.comparison (.sum (.product
          (.unary (.negate rfl hOperand.unary h.1)))))))⟩
  | .index base position, h => by
      rcases written_of_printable base h.2.1 with ⟨_, hBase⟩
      rcases written_of_printable position h.2.2 with ⟨_, hPosition⟩
      have hText : (Expr.index base position).describe.toList = base.describe.toList ++
            '[' :: (position.describe.toList ++ [']']) := by
        change (base.describe ++ "[" ++ position.describe ++ "]").toList = _
        simp
      rw [hText]
      rcases hBase.begins with ⟨c, _, hCons, hFirst⟩
      refine ⟨_, .ofPostfixed ⟨c, _, by rw [hCons]; rfl, hFirst⟩
        (hBase.lexes.subscript hPosition.lexes) ?_
        (.index (hBase.postfixed h.1) rfl hPosition.expression rfl)⟩
      simp only [forall_mem_cons, forall_mem_append]
      exact ⟨hBase.lines, rfl, hPosition.lines, rfl, forall_mem_nil _⟩

theorem chained_of_printable :
    (chain : Chain) → chain.Printable →
      ∃ us, WrittenChain chain.describe.toList us chain
  | .last op right, h => by
      rcases written_of_printable right h with ⟨us, hRight⟩
      have hText : (Chain.last op right).describe.toList =
          ' ' :: (op.symbol.toList ++ ' ' :: right.describe.toList) := by
        change (" " ++ op.symbol ++ " " ++ right.describe).toList = _
        simp
      rw [hText]
      refine ⟨onFirstLine op.kind op.symbol :: us, fun ds ts hDs => ?_, ?_, .last rfl hRight.sum⟩
      · exact hDs.binary (Lexes.comparison op) hRight.lexes
      · exact forall_mem_cons.mpr ⟨rfl, hRight.lines⟩
  | .link op right rest, h => by
      rcases written_of_printable right h.1 with ⟨us, hRight⟩
      rcases chained_of_printable rest h.2 with ⟨vs, hRest⟩
      have hText : (Chain.link op right rest).describe.toList =
          ' ' :: (op.symbol.toList ++ ' ' :: right.describe.toList) ++
            rest.describe.toList := by
        change (" " ++ op.symbol ++ " " ++ right.describe ++ rest.describe).toList = _
        simp
      rw [hText]
      refine ⟨onFirstLine op.kind op.symbol :: (us ++ vs),
        fun ds ts hDs => ?_, ?_, .link rfl hRight.sum hRest.chain⟩
      · have hFirst := hDs.binary (Lexes.comparison op) hRight.lexes
        have hAll := hRest.lexes _ _ hFirst
        simpa using hAll
      · simp only [forall_mem_cons, forall_mem_append]
        exact ⟨rfl, hRight.lines, hRest.lines⟩

end

------------------------------------------------------------
-- Reading What Is Printed
------------------------------------------------------------

/- One line is cut into its tokens and two more for its end. -/
theorem lex_line {text : String} {e : Expr}
    (h : Written text.toList ts e) :
    lex (text ++ "\n") = .ok (ts ++ [⟨.newline, "", 1⟩, ⟨.eof, "", 2⟩]) := by
  rcases h.begins with ⟨_, _, hCons, hFirst⟩
  have hRun := h.lexes 0 [] '\n' [] Lexer.delimits_newline
  rw [hCons, cons_append, ← Lexer.run_start _ hFirst] at hRun
  unfold lex
  rw [String.toList_append, hCons]
  refine hRun.trans ?_
  rw [append_nil]
  change Except.ok ((⟨.newline, "", 1⟩ :: ts.reverse).reverse ++ [] ++ [] ++ [⟨.eof, "", 2⟩]) = _
  simp

/- An expression on a line of its own is a script. -/
theorem Written.program {e : Expr} {newline : Token}
    (h : Written cs ts e)
    (hNewline : newline.kind = .newline) :
    Grammar.Program (ts ++ [newline]) [.expr 1 e] := by
  have hExpression := h.expression
  rcases hExpression.eq_cons with ⟨start, rest, rfl⟩
  have hLine := h.lines start mem_cons_self
  have hSimple := Grammar.Simple.expr hExpression
  rw [hLine] at hSimple
  rw [← append_nil (start :: rest ++ [newline])]
  exact .next (.simple hSimple (.newline hNewline)) .empty

/-
  Parsing undoes printing. The text of a printable expression,
  on a line of its own, is read as that expression.
-/
theorem parseSource_describe
    (e : Expr)
    (h : e.Printable) :
    parseSource (e.describe ++ "\n") = .ok [.expr 1 e] := by
  rcases written_of_printable e h with ⟨_, hWritten⟩
  have hProgram := hWritten.program (rfl : Token.kind ⟨.newline, "", 1⟩ = _)
  have hScript := hProgram.accepted (rfl : (Parser.peek [⟨.eof, "", 2⟩]).kind = .eof)
  rw [append_assoc, singleton_append] at hScript
  unfold parseSource
  rw [lex_line hWritten]
  dsimp only
  rw [parse_eq_ok.mpr hScript]

/-
  A minus sign as an operator, in literals and in front of a
  name, a chain of comparisons, and a largest integer.
-/
def signs : Expr :=
  .logic .and (.compare (.arith .sub (.name "a") (.literal (-5)))
      (.link .less (.index (.name "b") (.literal (-1)))
        (.last .lessEquals (.unary .negate (.name "c")))))
    (.unary .not (.arith .mod (.name "a") (.literal 9223372036854775807)))

theorem parseSource_describe_signs :
    signs.Printable ∧
      signs.describe =
        "(((a - -5) < b[-1] <= (- c)) and " ++ "(not (a % 9223372036854775807)))" ∧
      parseSource (signs.describe ++ "\n") = .ok [.expr 1 signs] := by
  have hName {id : String} {c : Char} (hText : id.toList = [c])
      (hStart : Lexer.isWordStart c = true)
      (hWord : Kind.keyword? id = none) : IsIdentifier id := by
    refine ⟨⟨c, [], hText, hStart⟩, ?_, hWord⟩
    rw [hText]
    exact forall_mem_singleton.mpr (isWordChar_of_isWordStart hStart)
  have hA : IsIdentifier "a" := hName (c := 'a') rfl (by decide) (by decide)
  have hB : IsIdentifier "b" := hName (c := 'b') rfl (by decide) (by decide)
  have hC : IsIdentifier "c" := hName (c := 'c') rfl (by decide) (by decide)
  have hLiteral {value : Int64} (h : value.toInt.natAbs ≤ 2 ^ 63 - 1) :
      (Expr.literal value).Printable := h
  have hSigns : signs.Printable :=
    ⟨⟨⟨hA, hLiteral (by decide)⟩, ⟨nofun, hB, hLiteral (by decide)⟩,
      nofun, hC⟩, hA, hLiteral (by decide)⟩
  exact ⟨hSigns, by decide, parseSource_describe signs hSigns⟩

end Script

end Pep9
