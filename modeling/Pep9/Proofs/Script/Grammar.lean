import Pep9.Proofs.Text.Decimal
import Pep9.Script.Parser

/-
  The grammar of the script language. Its rules derive a tree
  from the tokens that the tree is written with. Operators
  associate to the left, which left recursion says.

  Key theorems: `Grammar.Phrase.Derives.starts`,
  `Grammar.Clause.Derives.starts`, `Grammar.Program.noEnd`.
-/

namespace Pep9

variable {closed : Bool} {e : Expr} {phrase : Phrase}

namespace Script

variable {ts : List Token} {stmt : Stmt}

def Arith.kind : Arith → Kind
  | add => .plus
  | sub => .minus
  | mul => .star
  | div => .slash
  | mod => .percent

def Comparison.kind : Comparison → Kind
  | less => .less
  | lessEquals => .lessEquals
  | greater => .greater
  | greaterEquals => .greaterEquals
  | equals => .equals
  | notEquals => .notEquals

def Logic.kind : Logic → Kind
  | and => .kwAnd
  | or => .kwOr

def Augment.kind : Augment → Kind
  | add => .plusAssign
  | sub => .minusAssign

@[simp]
theorem Arith.kind_ne_eof (op : Arith) : op.kind ≠ .eof := by
  cases op <;> decide

@[simp]
theorem Comparison.kind_ne_eof (op : Comparison) : op.kind ≠ .eof := by
  cases op <;> decide

@[simp]
theorem Augment.kind_ne_eof (op : Augment) : op.kind ≠ .eof := by
  cases op <;> decide

namespace Grammar

/- The parts of expressions, from the loosest to the tightest. -/
inductive Phrase where
  | expression
  | conjunction
  | negation
  | comparison
  | chain
  | sum
  | product
  | unary
  | postfixed
  | primary
  | arguments

/- What a part of an expression stands for. -/
@[reducible]
def Phrase.Tree : Phrase → Type
  | chain => Chain
  | arguments => List Expr
  | _ => Expr

/- The tokens and trees of the parts of expressions. -/
inductive Phrase.Derives : (phrase : Phrase) → List Token → phrase.Tree → Prop where
  -- expression = conjunction ("or" conjunction)*
  | conjunction {ts : List Token} {e : Expr} (h : Derives .conjunction ts e) :
      Derives .expression ts e
  | or {ts us : List Token} {word : Token} {left right : Expr} (hLeft : Derives .expression ts left)
      (hWord : word.kind = .kwOr) (hRight : Derives .conjunction us right) :
      Derives .expression (ts ++ word :: us) (.logic .or left right)
  -- conjunction = negation ("and" negation)*
  | negation {ts : List Token} {e : Expr} (h : Derives .negation ts e) : Derives .conjunction ts e
  | and {ts us : List Token} {word : Token} {left right : Expr}
      (hLeft : Derives .conjunction ts left) (hWord : word.kind = .kwAnd)
      (hRight : Derives .negation us right) :
      Derives .conjunction (ts ++ word :: us) (.logic .and left right)
  -- negation = "not" negation | comparison
  | comparison {ts : List Token} {e : Expr} (h : Derives .comparison ts e) : Derives .negation ts e
  | not {ts : List Token} {word : Token} {e : Expr} (hWord : word.kind = .kwNot)
      (h : Derives .negation ts e) : Derives .negation (word :: ts) (.unary .not e)
  -- comparison = sum (operator sum)*
  | sum {ts : List Token} {e : Expr} (h : Derives .sum ts e) : Derives .comparison ts e
  | compare {ts us : List Token} {left : Expr} {chain : Chain} (hLeft : Derives .sum ts left)
      (hChain : Derives .chain us chain) : Derives .comparison (ts ++ us) (.compare left chain)
  | last {ts : List Token} {sign : Token} {op : Comparison} {right : Expr}
      (hSign : sign.kind = op.kind) (hRight : Derives .sum ts right) :
      Derives .chain (sign :: ts) (.last op right)
  | link {ts us : List Token} {sign : Token} {op : Comparison} {right : Expr} {chain : Chain}
      (hSign : sign.kind = op.kind) (hRight : Derives .sum ts right)
      (hChain : Derives .chain us chain) :
      Derives .chain (sign :: (ts ++ us)) (.link op right chain)
  -- sum = product (("+" | "-") product)*
  | product {ts : List Token} {e : Expr} (h : Derives .product ts e) : Derives .sum ts e
  | addend {ts us : List Token} {sign : Token} {op : Arith} {left right : Expr}
      (hLeft : Derives .sum ts left) (hOp : op = .add ∨ op = .sub) (hSign : sign.kind = op.kind)
      (hRight : Derives .product us right) : Derives .sum (ts ++ sign :: us) (.arith op left right)
  -- product = unary (("*" | "/" | "%") unary)*
  | unary {ts : List Token} {e : Expr} (h : Derives .unary ts e) : Derives .product ts e
  | factor {ts us : List Token} {sign : Token} {op : Arith} {left right : Expr}
      (hLeft : Derives .product ts left) (hOp : op = .mul ∨ op = .div ∨ op = .mod)
      (hSign : sign.kind = op.kind) (hRight : Derives .unary us right) :
      Derives .product (ts ++ sign :: us) (.arith op left right)
  -- unary = ("-" | "+") unary | postfixed
  | postfixed {ts : List Token} {e : Expr} (h : Derives .postfixed ts e) : Derives .unary ts e
  | plus {ts : List Token} {sign : Token} {e : Expr} (hSign : sign.kind = .plus)
      (h : Derives .unary ts e) : Derives .unary (sign :: ts) e
  -- A minus in front of an integer is part of it.
  | negative {ts : List Token} {sign : Token} {value : Int64} (hSign : sign.kind = .minus)
      (h : Derives .unary ts (.literal value)) : Derives .unary (sign :: ts) (.literal (-value))
  | negate {ts : List Token} {sign : Token} {e : Expr} (hSign : sign.kind = .minus)
      (h : Derives .unary ts e) (hOther : ∀ value, e ≠ .literal value) :
      Derives .unary (sign :: ts) (.unary .negate e)
  -- postfixed = primary ("[" expression "]" | "(" arguments ")")*
  | primary {ts : List Token} {e : Expr} (h : Derives .primary ts e) : Derives .postfixed ts e
  | index {ts us : List Token} {left right : Token} {base position : Expr}
      (hBase : Derives .postfixed ts base) (hLeft : left.kind = .leftBracket)
      (hPosition : Derives .expression us position) (hRight : right.kind = .rightBracket) :
      Derives .postfixed (ts ++ left :: (us ++ [right])) (.index base position)
  -- Only what is a name can be called.
  | call {ts us : List Token} {left right : Token} {function : String} {args : List Expr}
      (hBase : Derives .postfixed ts (.name function)) (hLeft : left.kind = .leftParen)
      (hArgs : Derives .arguments us args) (hRight : right.kind = .rightParen) :
      Derives .postfixed (ts ++ left :: (us ++ [right])) (.call function args)
  -- primary = INTEGER | STRING | IDENTIFIER
  --         | "(" expression ")" | "[" arguments "]"
  | integer {word : Token} {value : Int64} (hKind : word.kind = .integer)
      (hValue : Text.Numeral.IsDecimal word.lexeme value) : Derives .primary [word] (.literal value)
  | string {word : Token} (hKind : word.kind = .string) :
      Derives .primary [word] (.string word.lexeme)
  | name {word : Token} (hKind : word.kind = .identifier) :
      Derives .primary [word] (.name word.lexeme)
  | paren {ts : List Token} {left right : Token} {e : Expr} (hLeft : left.kind = .leftParen)
      (h : Derives .expression ts e) (hRight : right.kind = .rightParen) :
      Derives .primary (left :: (ts ++ [right])) e
  | list {ts : List Token} {left right : Token} {elements : List Expr}
      (hLeft : left.kind = .leftBracket) (h : Derives .arguments ts elements)
      (hRight : right.kind = .rightBracket) :
      Derives .primary (left :: (ts ++ [right])) (.list elements)
  -- arguments = [expression ("," expression)* [","]]
  | noArguments : Derives .arguments [] []
  | argument {ts : List Token} {e : Expr} (h : Derives .expression ts e) : Derives .arguments ts [e]
  | more {ts us : List Token} {comma : Token} {e : Expr} {others : List Expr}
      (h : Derives .expression ts e) (hComma : comma.kind = .comma)
      (hOthers : Derives .arguments us others) :
      Derives .arguments (ts ++ comma :: us) (e :: others)

/- ("=" expression)*, with places in front of the last value. -/
inductive Assigned : List Token → List Place → Expr → Prop where
  | value {ts : List Token} {equals : Token} {e : Expr} (hEquals : equals.kind = .assign)
      (h : Phrase.Derives .expression ts e) : Assigned (equals :: ts) [] e
  | target {ts us : List Token} {equals : Token} {place : Place} {places : List Place} {e : Expr}
      (hEquals : equals.kind = .assign) (hPlace : Phrase.Derives .expression ts place.toExpr)
      (hMore : Assigned us places e) : Assigned (equals :: (ts ++ us)) (place :: places) e

/-
  Statements on one line. The line of a statement is that of
  its first token.
-/
inductive Simple : List Token → Stmt → Prop where
  | pass {word : Token} (hWord : word.kind = .kwPass) : Simple [word] (.pass word.line)
  | breakLoop {word : Token} (hWord : word.kind = .kwBreak) : Simple [word] (.breakLoop word.line)
  | continueLoop {word : Token} (hWord : word.kind = .kwContinue) :
      Simple [word] (.continueLoop word.line)
  | ret {word : Token} (hWord : word.kind = .kwReturn) : Simple [word] (.ret word.line none)
  | retValue {ts : List Token} {word : Token} {e : Expr} (hWord : word.kind = .kwReturn)
      (h : Phrase.Derives .expression ts e) : Simple (word :: ts) (.ret word.line (some e))
  | expr {ts : List Token} {start : Token} {e : Expr}
      (h : Phrase.Derives .expression (start :: ts) e) : Simple (start :: ts) (.expr start.line e)
  | assign {ts us : List Token} {start : Token} {place : Place} {places : List Place} {e : Expr}
      (hPlace : Phrase.Derives .expression (start :: ts) place.toExpr) (h : Assigned us places e) :
      Simple (start :: ts ++ us) (.assign start.line place places e)
  | augment {ts us : List Token} {start sign : Token} {place : Place} {op : Augment} {e : Expr}
      (hPlace : Phrase.Derives .expression (start :: ts) place.toExpr) (hSign : sign.kind = op.kind)
      (h : Phrase.Derives .expression us e) : Simple (start :: ts ++ sign :: us)
        (.augment start.line place op e)

/- [IDENTIFIER ("," IDENTIFIER)* [","]] -/
inductive Parameters : List Token → List String → Prop where
  | none : Parameters [] []
  | one {param : Token} (hParam : param.kind = .identifier) : Parameters [param] [param.lexeme]
  | more {ts : List Token} {param comma : Token} {others : List String}
      (hParam : param.kind = .identifier) (hComma : comma.kind = .comma)
      (hOthers : Parameters ts others) : Parameters (param :: comma :: ts) (param.lexeme :: others)

/-
  The end of a line. Only at the end of the tokens may the
  NEWLINE be missing, and the line is then not `closed`.
-/
inductive LineEnd : (closed : Bool) → List Token → Prop where
  | newline {word : Token} (hWord : word.kind = .newline) : LineEnd true [word]
  | missing : LineEnd false []

/-
  The parts of statements. `closed` tells whether the last
  line of a part has its NEWLINE. `branches` is what follows
  the first word of a conditional, which is on `line`.
-/
inductive Clause where
  | statement (closed : Bool)
  | branches (line : Int) (closed : Bool)
  | block (closed : Bool)
  | suite

/- What a part of a statement stands for. -/
@[reducible]
def Clause.Tree : Clause → Type
  | statement _ | branches _ _ => Stmt
  | block _ | suite => List Stmt

/- The tokens and trees of the parts of statements. -/
inductive Clause.Derives : (clause : Clause) → List Token → clause.Tree → Prop where
  -- statement = simple NEWLINE | if | while | for | def
  | simple {closed : Bool} {ts us : List Token} {stmt : Stmt} (h : Simple ts stmt)
      (hEnd : LineEnd closed us) : Derives (.statement closed) (ts ++ us) stmt
  | conditional {closed : Bool} {ts : List Token} {word : Token} {stmt : Stmt}
      (hWord : word.kind = .kwIf) (h : Derives (.branches word.line closed) ts stmt) :
      Derives (.statement closed) (word :: ts) stmt
  | loop {closed : Bool} {ts us : List Token} {word : Token} {test : Expr} {body : List Stmt}
      (hWord : word.kind = .kwWhile) (hTest : Phrase.Derives .expression ts test)
      (hBody : Derives (.block closed) us body) : Derives (.statement closed) (word :: (ts ++ us))
        (.loop word.line test body)
  | each {closed : Bool} {ts us : List Token} {word target link : Token}
      {source : Expr} {body : List Stmt} (hWord : word.kind = .kwFor)
      (hTarget : target.kind = .identifier) (hLink : link.kind = .kwIn)
      (hSource : Phrase.Derives .expression ts source) (hBody : Derives (.block closed) us body) :
      Derives (.statement closed) (word :: target :: link :: (ts ++ us))
        (.each word.line target.lexeme source body)
  | define {closed : Bool} {ts us : List Token} {word name left right : Token}
      {params : List String} {body : List Stmt} (hWord : word.kind = .kwDef)
      (hName : name.kind = .identifier) (hLeft : left.kind = .leftParen)
      (hParams : Parameters ts params) (hDistinct : params.Nodup)
      (hRight : right.kind = .rightParen) (hBody : Derives (.block closed) us body) :
      Derives (.statement closed) (word :: name :: left :: (ts ++ right :: us))
        (.define word.line name.lexeme params body)
  -- if = "if" branches, where
  -- branches = expression block ["elif" branches | "else" block]
  | only {line : Int} {closed : Bool} {ts us : List Token} {test : Expr} {body : List Stmt}
      (hTest : Phrase.Derives .expression ts test) (hBody : Derives (.block closed) us body) :
      Derives (.branches line closed) (ts ++ us) (.cond line test body [])
  | orElse {line : Int} {closed : Bool} {ts us vs : List Token}
      {word : Token} {test : Expr} {body orElse : List Stmt}
      (hTest : Phrase.Derives .expression ts test) (hBody : Derives (.block true) us body)
      (hWord : word.kind = .kwElse) (hElse : Derives (.block closed) vs orElse) :
      Derives (.branches line closed) (ts ++ (us ++ word :: vs)) (.cond line test body orElse)
  -- An elif is a conditional alone in the else branch.
  | elif {line : Int} {closed : Bool} {ts us vs : List Token}
      {word : Token} {test : Expr} {body : List Stmt} {nested : Stmt}
      (hTest : Phrase.Derives .expression ts test) (hBody : Derives (.block true) us body)
      (hWord : word.kind = .kwElif) (hNested : Derives (.branches word.line closed) vs nested) :
      Derives (.branches line closed) (ts ++ (us ++ word :: vs)) (.cond line test body [nested])
  -- block = ":" (simple NEWLINE | NEWLINE INDENT suite DEDENT)
  | line {closed : Bool} {ts us : List Token} {colon : Token} {stmt : Stmt}
      (hColon : colon.kind = .colon) (h : Simple ts stmt) (hEnd : LineEnd closed us) :
      Derives (.block closed) (colon :: (ts ++ us)) [stmt]
  | indented {ts : List Token} {colon newline indent dedent : Token} {body : List Stmt}
      (hColon : colon.kind = .colon) (hNewline : newline.kind = .newline)
      (hIndent : indent.kind = .indent) (h : Derives .suite ts body)
      (hDedent : dedent.kind = .dedent) : Derives (.block true)
        (colon :: newline :: indent :: (ts ++ [dedent])) body
  -- suite = statement*
  | done : Derives .suite [] []
  | next {ts us : List Token} {stmt : Stmt} {others : List Stmt}
      (h : Derives (.statement true) ts stmt) (hOthers : Derives .suite us others) :
      Derives .suite (ts ++ us) (stmt :: others)

/-
  Whole scripts: (NEWLINE | statement)*, where the last line
  need not be closed.
-/
inductive Program : List Token → List Stmt → Prop where
  | empty : Program [] []
  | blank {ts : List Token} {word : Token} {stmts : List Stmt} (hWord : word.kind = .newline)
      (h : Program ts stmts) : Program (word :: ts) stmts
  | next {ts us : List Token} {stmt : Stmt} {others : List Stmt}
      (h : Clause.Derives (.statement true) ts stmt) (hOthers : Program us others) :
      Program (ts ++ us) (stmt :: others)
  | last {ts : List Token} {stmt : Stmt} (h : Clause.Derives (.statement false) ts stmt) :
      Program ts [stmt]

------------------------------------------------------------
-- First Tokens
------------------------------------------------------------

open Script.Parser (peek)

/- How tight a part of an expression a token can start. -/
def opens : Kind → Nat
  | .kwNot => 1
  | .plus => 2
  | .minus => 2
  | .integer => 3
  | .string => 3
  | .identifier => 3
  | .leftParen => 3
  | .leftBracket => 3
  | _ => 0

/- How tight the first token of a part is at least. -/
def Phrase.opening : Phrase → Nat
  | expression | conjunction | negation => 1
  | comparison => 2
  | chain => 0
  | sum | product | unary => 2
  | postfixed | primary => 3
  | arguments => 0

/- What follows a part does not change its first token. -/
theorem Phrase.peek_append
    (phrase : Phrase)
    (us : List Token)
    (h : phrase.opening ≤ opens (peek ts).kind)
    (hOwn : 0 < phrase.opening) :
    peek (ts ++ us) = peek ts := by
  cases ts with
  | nil => exact absurd (Nat.lt_of_lt_of_le hOwn h) (by decide)
  | cons => rfl

/- The first token of a part of an expression. -/
theorem Phrase.Derives.starts {tree : phrase.Tree}
    (h : phrase.Derives ts tree) :
    phrase.opening ≤ opens (peek ts).kind := by
  induction h with
  | conjunction _ ih => exact ih
  | or _ _ _ ih _ => rwa [Phrase.expression.peek_append _ ih (by decide)]
  | negation _ ih => exact ih
  | and _ _ _ ih _ => rwa [Phrase.conjunction.peek_append _ ih (by decide)]
  | comparison _ ih => exact Nat.le_of_succ_le ih
  | not hWord => simp [peek, hWord, opens, Phrase.opening]
  | sum _ ih => exact ih
  | compare _ _ ih _ => rwa [Phrase.sum.peek_append _ ih (by decide)]
  | last | link => exact Nat.zero_le _
  | product _ ih => exact ih
  | addend _ _ _ _ ih _ => rwa [Phrase.sum.peek_append _ ih (by decide)]
  | unary _ ih => exact ih
  | factor _ _ _ _ ih _ => rwa [Phrase.product.peek_append _ ih (by decide)]
  | postfixed _ ih => exact Nat.le_of_succ_le ih
  | plus hSign | negative hSign | negate hSign => simp [peek, hSign, opens, Phrase.opening]
  | primary _ ih => exact ih
  | index _ _ _ _ ih _ | call _ _ _ _ ih _ => rwa [Phrase.postfixed.peek_append _ ih (by decide)]
  | integer hKind | string hKind | name hKind => simp [peek, hKind, opens, Phrase.opening]
  | paren hLeft | list hLeft => simp [peek, hLeft, opens, Phrase.opening]
  | noArguments | argument | more => exact Nat.zero_le _

theorem Phrase.Derives.eq_cons (h : Phrase.Derives .expression ts e) :
    ∃ start rest, ts = start :: rest := by
  cases ts with
  | nil => exact absurd h.starts (by decide)
  | cons start rest => exact ⟨start, rest, rfl⟩

/- The tokens that start a statement on one line. -/
def startsSimple : Kind → Bool
  | .kwPass => true
  | .kwBreak => true
  | .kwContinue => true
  | .kwReturn => true
  | kind => 0 < opens kind

def startsStatement : Kind → Bool
  | .kwIf => true
  | .kwWhile => true
  | .kwFor => true
  | .kwDef => true
  | kind => startsSimple kind

theorem startsSimple_of_opens {kind : Kind}
    (h : 0 < opens kind) :
    startsSimple kind = true := by
  cases kind <;> first | rfl | exact absurd h (by simp [opens])

theorem startsStatement_of_startsSimple {kind : Kind}
    (h : startsSimple kind = true) :
    startsStatement kind = true := by
  cases kind <;> first | rfl | exact absurd h (by simp [startsSimple, opens])

/- What follows a statement does not change its first token. -/
theorem peek_append_of_startsStatement
    (us : List Token)
    (h : startsStatement (peek ts).kind = true) :
    peek (ts ++ us) = peek ts := by
  cases ts with
  | nil => exact absurd h (by decide)
  | cons => rfl

theorem Simple.starts (h : Simple ts stmt) :
    startsSimple (peek ts).kind = true := by
  cases h with
  | pass hWord => simp [peek, hWord, startsSimple]
  | breakLoop hWord => simp [peek, hWord, startsSimple]
  | continueLoop hWord | ret hWord | retValue hWord => simp [peek, hWord, startsSimple]
  | expr h => exact startsSimple_of_opens h.starts
  | assign hPlace | augment hPlace => exact startsSimple_of_opens hPlace.starts

theorem Clause.Derives.starts (h : Derives (.statement closed) ts stmt) :
    startsStatement (peek ts).kind = true := by
  cases h with
  | simple h _ =>
    have hStarts := startsStatement_of_startsSimple h.starts
    rwa [peek_append_of_startsStatement _ hStarts]
  | conditional hWord => simp [peek, hWord, startsStatement]
  | loop hWord | each hWord | define hWord => simp [peek, hWord, startsStatement]

/- Tokens none of which marks the end of the input. -/
def NoEnd (ts : List Token) : Prop := ∀ t ∈ ts, t.kind ≠ .eof

@[simp]
theorem noEnd_nil : NoEnd [] := List.forall_mem_nil _

@[simp]
theorem noEnd_cons {t : Token} :
    NoEnd (t :: ts) ↔ t.kind ≠ .eof ∧ NoEnd ts := List.forall_mem_cons

@[simp]
theorem noEnd_append {us : List Token} :
    NoEnd (ts ++ us) ↔ NoEnd ts ∧ NoEnd us :=
  List.forall_mem_append

/- No rule for expressions takes the end of the input. -/
theorem Phrase.Derives.noEnd {tree : phrase.Tree}
    (h : phrase.Derives ts tree) :
    NoEnd ts := by
  induction h <;> simp_all

theorem Assigned.noEnd {places : List Place}
    (h : Assigned ts places e) :
    NoEnd ts := by
  induction h with
  | value hEquals h => simp [hEquals, h.noEnd]
  | target hEquals hPlace _ ih => simp [hEquals, hPlace.noEnd, ih]

theorem Simple.noEnd (h : Simple ts stmt) : NoEnd ts := by
  cases h with
  | pass hWord | breakLoop hWord | continueLoop hWord | ret hWord => simp [hWord]
  | retValue hWord h => simp [hWord, h.noEnd]
  | expr h => exact h.noEnd
  | assign hPlace h => exact noEnd_append.mpr ⟨hPlace.noEnd, h.noEnd⟩
  | augment hPlace hSign h =>
    refine noEnd_append.mpr ⟨hPlace.noEnd, ?_⟩
    simp [hSign, h.noEnd]

theorem Parameters.noEnd {params : List String}
    (h : Parameters ts params) :
    NoEnd ts := by
  induction h with
  | none => exact noEnd_nil
  | one hParam => simp [hParam]
  | more hParam hComma _ ih => simp [hParam, hComma, ih]

theorem LineEnd.noEnd (h : LineEnd closed ts) : NoEnd ts := by
  cases h with
  | newline hWord => simp [hWord]
  | missing => exact noEnd_nil

theorem Clause.Derives.noEnd {clause : Clause} {tree : clause.Tree}
    (h : clause.Derives ts tree) :
    NoEnd ts := by
  induction h with
  | simple h hEnd => simp [h.noEnd, hEnd.noEnd]
  | conditional hWord _ ih => simp [hWord, ih]
  | loop hWord hTest _ ih => simp [hWord, hTest.noEnd, ih]
  | each hWord hTarget hLink hSource _ ih => simp [hWord, hTarget, hLink, hSource.noEnd, ih]
  | define hWord hName hLeft hParams _ hRight _ ih =>
    simp [hWord, hName, hLeft, hParams.noEnd, hRight, ih]
  | only hTest _ ih => simp [hTest.noEnd, ih]
  | orElse hTest _ hWord _ ihBody ihElse => simp [hTest.noEnd, ihBody, hWord, ihElse]
  | elif hTest _ hWord _ ihBody ihNested => simp [hTest.noEnd, ihBody, hWord, ihNested]
  | line hColon h hEnd => simp [hColon, h.noEnd, hEnd.noEnd]
  | indented hColon hNewline hIndent _ hDedent ih => simp [hColon, hNewline, hIndent, hDedent, ih]
  | done => exact noEnd_nil
  | next _ _ ih ihOthers => simp [ih, ihOthers]

theorem Program.noEnd {stmts : List Stmt}
    (h : Program ts stmts) :
    NoEnd ts := by
  induction h with
  | empty => exact noEnd_nil
  | blank hWord _ ih => simp [hWord, ih]
  | next h _ ih => simp [h.noEnd, ih]
  | last h => exact h.noEnd

end Grammar

end Script

end Pep9
