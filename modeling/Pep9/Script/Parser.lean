import Pep9.Script.Lexer
import Pep9.Script.Stmt
import Pep9.Text.Blank
import Pep9.Text.Numeral

/-
  From tokens to statements, by recursive descent.

    script      = (NEWLINE | statement)*
    statement   = if | while | for | def | simple NEWLINE
    simple      = "pass" | "break" | "continue"
                | "return" [expression]
                | expression ("=" expression)*
                | expression ("+=" | "-=") expression
    if          = "if" expression block
                  ("elif" expression block)* ["else" block]
    while       = "while" expression block
    for         = "for" IDENTIFIER "in" expression block
    def         = "def" IDENTIFIER "(" [parameters] ")" block
    block       = ":" (simple NEWLINE
                      | NEWLINE INDENT statement* DEDENT)
    expression  = conjunction ("or" conjunction)*
    conjunction = negation ("and" negation)*
    negation    = "not" negation | comparison
    comparison  = sum (operator sum)*
    sum         = product (("+" | "-") product)*
    product     = unary (("*" | "/" | "%") unary)*
    unary       = ("-" | "+") unary | postfix
    postfix     = primary ("[" expression "]" | "(" arguments ")")*
    primary     = INTEGER | STRING | IDENTIFIER
                | "(" expression ")" | "[" arguments "]"

  The end of the tokens stands for a missing last NEWLINE,
  and lists may end with a comma.

  Key definitions: `SyntaxError`, `Parser.Parsed`,
  `Parser.expression`, `Parser.statement`, `parse`,
  `parseSource`.
-/

namespace Pep9

namespace Script

inductive SyntaxCause where
  | expected (kind : Kind) (got : Token)
  | unexpectedToken (got : Token)
  | notCallable
  | badInteger (lexeme : String)
  | duplicateParameter (param : String) (function : String)
  | notAssignable (target : Expr)
  | unexpectedIndent
  | branchWithoutIf (lexeme : String)

def SyntaxCause.message : SyntaxCause → String
  | expected kind got =>
      "expected " ++ kind.name ++ ", got " ++ got.kind.name
        ++ " (" ++ Text.quoted got.lexeme ++ ")"
  | unexpectedToken got =>
      "unexpected token " ++ got.kind.name
        ++ " (" ++ Text.quoted got.lexeme ++ ") in expression"
  | notCallable => "only named functions can be called"
  | badInteger lexeme => "invalid integer literal " ++ Text.quoted lexeme
  | duplicateParameter param function =>
      "duplicate parameter " ++ Text.quoted param
        ++ " in function " ++ Text.quoted function
  | notAssignable target => "cannot assign to " ++ target.describe
  | unexpectedIndent => "unexpected indent"
  | branchWithoutIf lexeme => Text.quoted lexeme ++ " without matching if"

/- A cause and the line of the token that shows it. -/
structure SyntaxFault where
  line : Int
  cause : SyntaxCause

/- A fault together with the source line it points at. -/
structure SyntaxError where
  fault : SyntaxFault
  snippet : String

namespace SyntaxError

def line (e : SyntaxError) : Int :=
  e.fault.line

def message (e : SyntaxError) : String :=
  "line " ++ toString e.line ++ ": " ++ e.fault.cause.message
    ++ "\n  |> " ++ e.snippet

/- Looks up the source line that a fault points at. -/
def ofFault (source : String) (fault : SyntaxFault) : SyntaxError where
  fault := fault
  snippet :=
    if fault.line < 1 then
      "<source unavailable>"
    else
      match (Text.lines source)[(fault.line - 1).toNat]? with
      | some line => Text.trim line
      | none => "<source unavailable>"

end SyntaxError

namespace Parser

/-
  A value read from the front of `tokens`, and the tokens
  that are left. At least one token has been read.
-/
structure Parsed (α : Type) (tokens : List Token) where
  value : α
  rest : List Token
  shorter : rest.length < tokens.length

/-
  A value read from the front of `tokens`, possibly from no
  token at all.
-/
structure Within (α : Type) (tokens : List Token) where
  value : α
  rest : List Token
  notLonger : rest.length ≤ tokens.length

namespace Within

/- Reads no token. -/
def here {α : Type} (value : α) (tokens : List Token) : Within α tokens where
  value := value
  rest := tokens
  notLonger := Nat.le_refl _

/- What is read behind some tokens is read behind more. -/
def widen {α : Type} {tokens more : List Token} (w : Within α tokens)
    (h : tokens.length ≤ more.length) : Within α more where
  value := w.value
  rest := w.rest
  notLonger := Nat.le_trans w.notLonger h

/- Reading on after at least one token. -/
def parsed {α : Type} {tokens more : List Token} (w : Within α tokens)
    (h : tokens.length < more.length) : Parsed α more where
  value := w.value
  rest := w.rest
  shorter := Nat.lt_of_le_of_lt w.notLonger h

end Within

namespace Parsed

/- What is read behind some tokens is read behind more. -/
def widen {α : Type} {tokens more : List Token} (p : Parsed α tokens)
    (h : tokens.length ≤ more.length) : Parsed α more where
  value := p.value
  rest := p.rest
  shorter := Nat.lt_of_lt_of_le p.shorter h

def map {α β : Type} {tokens : List Token} (f : α → β)
    (p : Parsed α tokens) : Parsed β tokens where
  value := f p.value
  rest := p.rest
  shorter := p.shorter

end Parsed

/- The next token; behind the last one is the end of input. -/
def peek (tokens : List Token) : Token :=
  tokens.headD .endOfInput

def reject {α : Type} (token : Token)
    (cause : SyntaxCause) : Except SyntaxFault α :=
  .error ⟨token.line, cause⟩

/- Reads a token of one kind. -/
def expect (kind : Kind)
    (tokens : List Token) : Except SyntaxFault (Parsed Token tokens) :=
  match tokens with
  | [] => reject .endOfInput (.expected kind .endOfInput)
  | token :: rest =>
      if token.kind = kind then
        .ok ⟨token, rest, Nat.lt_succ_self _⟩
      else
        reject token (.expected kind token)

/- Reads the end of a line, which the end of input can replace. -/
def endOfLine (tokens : List Token) : Except SyntaxFault (Within Unit tokens) :=
  if (peek tokens).kind = .eof then
    .ok (.here () tokens)
  else do
    let newline ← expect .newline tokens
    return ⟨(), newline.rest, Nat.le_of_lt newline.shorter⟩

def comparison? : Kind → Option Comparison
  | .less => some .less
  | .lessEquals => some .lessEquals
  | .greater => some .greater
  | .greaterEquals => some .greaterEquals
  | .equals => some .equals
  | .notEquals => some .notEquals
  | _ => none

def additive? : Kind → Option Arith
  | .plus => some .add
  | .minus => some .sub
  | _ => none

def multiplicative? : Kind → Option Arith
  | .star => some .mul
  | .slash => some .div
  | .percent => some .mod
  | _ => none

def negated : Expr → Expr
  | .literal value => .literal (-value)
  | e => .unary .negate e

------------------------------------------------------------
-- Expressions
------------------------------------------------------------

mutual

def expression
    (tokens : List Token) : Except SyntaxFault (Parsed Expr tokens) := do
  let left ← conjunction tokens
  have := left.shorter
  let whole ← disjuncts left.value left.rest
  return whole.parsed left.shorter
termination_by 21 * tokens.length + 18

/- Reads on after the first operands of `or`. -/
def disjuncts (left : Expr)
    (tokens : List Token) : Except SyntaxFault (Within Expr tokens) :=
  match tokens with
  | [] => .ok (.here left [])
  | token :: rest =>
      if token.kind = .kwOr then do
        let right ← conjunction rest
        have := right.shorter
        let whole ← disjuncts (.logic .or left right.value) right.rest
        return whole.widen (by rw [List.length_cons]; omega)
      else
        .ok (.here left (token :: rest))
termination_by 21 * tokens.length

def conjunction
    (tokens : List Token) : Except SyntaxFault (Parsed Expr tokens) := do
  let left ← negation tokens
  have := left.shorter
  let whole ← conjuncts left.value left.rest
  return whole.parsed left.shorter
termination_by 21 * tokens.length + 16

def conjuncts (left : Expr)
    (tokens : List Token) : Except SyntaxFault (Within Expr tokens) :=
  match tokens with
  | [] => .ok (.here left [])
  | token :: rest =>
      if token.kind = .kwAnd then do
        let right ← negation rest
        have := right.shorter
        let whole ← conjuncts (.logic .and left right.value) right.rest
        return whole.widen (by rw [List.length_cons]; omega)
      else
        .ok (.here left (token :: rest))
termination_by 21 * tokens.length

def negation (tokens : List Token) : Except SyntaxFault (Parsed Expr tokens) :=
  match tokens with
  | [] => comparison []
  | token :: rest =>
      if token.kind = .kwNot then do
        let operand ← negation rest
        return (operand.map (.unary .not)).widen (by simp)
      else
        comparison (token :: rest)
termination_by 21 * tokens.length + 14

/- Reads a sum, or a chain of comparisons between sums. -/
def comparison
    (tokens : List Token) : Except SyntaxFault (Parsed Expr tokens) := do
  let left ← sum tokens
  have := left.shorter
  let links ← comparisons left.rest
  return (links.parsed left.shorter).map fun found =>
    match found with
    | some chain => .compare left.value chain
    | none => left.value
termination_by 21 * tokens.length + 12

/- Reads the comparisons of a chain, if there are any. -/
def comparisons
    (tokens : List Token) : Except SyntaxFault (Within (Option Chain) tokens) :=
  match tokens with
  | [] => .ok (.here none [])
  | token :: rest =>
      match comparison? token.kind with
      | some op => do
          let right ← sum rest
          have := right.shorter
          let more ← comparisons right.rest
          let chain : Chain :=
            match more.value with
            | some links => .link op right.value links
            | none => .last op right.value
          return ⟨some chain, more.rest, by
            have := more.notLonger
            simp
            omega⟩
      | none => .ok (.here none (token :: rest))
termination_by 21 * tokens.length

def sum (tokens : List Token) : Except SyntaxFault (Parsed Expr tokens) := do
  let left ← product tokens
  have := left.shorter
  let whole ← addends left.value left.rest
  return whole.parsed left.shorter
termination_by 21 * tokens.length + 10

/- Reads on after the first operands of `+` and `-`. -/
def addends (left : Expr)
    (tokens : List Token) : Except SyntaxFault (Within Expr tokens) :=
  match tokens with
  | [] => .ok (.here left [])
  | token :: rest =>
      match additive? token.kind with
      | some op => do
          let right ← product rest
          have := right.shorter
          let whole ← addends (.arith op left right.value) right.rest
          return whole.widen (by rw [List.length_cons]; omega)
      | none => .ok (.here left (token :: rest))
termination_by 21 * tokens.length

def product
    (tokens : List Token) : Except SyntaxFault (Parsed Expr tokens) := do
  let left ← unary tokens
  have := left.shorter
  let whole ← factors left.value left.rest
  return whole.parsed left.shorter
termination_by 21 * tokens.length + 8

def factors (left : Expr)
    (tokens : List Token) : Except SyntaxFault (Within Expr tokens) :=
  match tokens with
  | [] => .ok (.here left [])
  | token :: rest =>
      match multiplicative? token.kind with
      | some op => do
          let right ← unary rest
          have := right.shorter
          let whole ← factors (.arith op left right.value) right.rest
          return whole.widen (by rw [List.length_cons]; omega)
      | none => .ok (.here left (token :: rest))
termination_by 21 * tokens.length

/- Reads operands of `*`, `/` and `%`. -/
def unary (tokens : List Token) : Except SyntaxFault (Parsed Expr tokens) :=
  match tokens with
  | [] => postfixed []
  | token :: rest =>
      if token.kind = .minus then do
        let operand ← unary rest
        return (operand.map negated).widen (by simp)
      else if token.kind = .plus then do
        let operand ← unary rest
        return operand.widen (by simp)
      else
        postfixed (token :: rest)
termination_by 21 * tokens.length + 6

/- Reads a primary expression with its subscripts and calls. -/
def postfixed
    (tokens : List Token) : Except SyntaxFault (Parsed Expr tokens) := do
  let base ← primary tokens
  have := base.shorter
  let whole ← suffixes base.value base.rest
  return whole.parsed base.shorter
termination_by 21 * tokens.length + 4

/- Reads subscripts and calls behind an expression. -/
def suffixes (base : Expr)
    (tokens : List Token) : Except SyntaxFault (Within Expr tokens) :=
  match tokens with
  | [] => .ok (.here base [])
  | token :: rest =>
      if token.kind = .leftBracket then do
        let position ← expression rest
        have := position.shorter
        let close ← expect .rightBracket position.rest
        have := close.shorter
        let whole ← suffixes (.index base position.value) close.rest
        return whole.widen
          (Nat.le_succ_of_le (Nat.le_of_lt (Nat.lt_trans close.shorter position.shorter)))
      else if token.kind = .leftParen then
        match base with
        | .name function => do
            let args ← arguments .rightParen rest
            have := args.shorter
            let whole ← suffixes (.call function args.value) args.rest
            return whole.widen (Nat.le_succ_of_le (Nat.le_of_lt args.shorter))
        | _ => reject token .notCallable
      else
        .ok (.here base (token :: rest))
termination_by 21 * tokens.length

/-
  Reads expressions between commas up to and with the token
  that closes them. A comma may stand before that token.
-/
def arguments (closing : Kind)
    (tokens : List Token) : Except SyntaxFault (Parsed (List Expr) tokens) :=
  if (peek tokens).kind = closing then do
    let close ← expect closing tokens
    return close.map fun _ => []
  else do
    let first ← expression tokens
    have := first.shorter
    if (peek first.rest).kind = .comma then
      let comma ← expect .comma first.rest
      have := comma.shorter
      let more ← arguments closing comma.rest
      return (more.map (first.value :: ·)).widen (by omega)
    else
      let close ← expect closing first.rest
      return (close.map fun _ => [first.value]).widen (by omega)
termination_by 21 * tokens.length + 20

/- Reads a literal, a name, a list or a parenthesised expression. -/
def primary (tokens : List Token) : Except SyntaxFault (Parsed Expr tokens) :=
  match tokens with
  | [] => reject .endOfInput (.unexpectedToken .endOfInput)
  | token :: rest =>
      match token.kind with
      | .integer =>
          match Text.Numeral.readDecimal? token.lexeme with
          | some value => .ok ⟨.literal value, rest, Nat.lt_succ_self _⟩
          | none => reject token (.badInteger token.lexeme)
      | .string => .ok ⟨.string token.lexeme, rest, Nat.lt_succ_self _⟩
      | .identifier => .ok ⟨.name token.lexeme, rest, Nat.lt_succ_self _⟩
      | .leftParen => do
          let inner ← expression rest
          have := inner.shorter
          let close ← expect .rightParen inner.rest
          return (close.map fun _ => inner.value).widen (by simp; omega)
      | .leftBracket => do
          let elements ← arguments .rightBracket rest
          return (elements.map Expr.list).widen (by simp)
      | _ => reject token (.unexpectedToken token)
termination_by 21 * tokens.length + 2

end

------------------------------------------------------------
-- Simple Statements
------------------------------------------------------------

/-
  The places and the value of `= e₁ = e₂ ...`. Each
  expression before another equals sign must be a place.
-/
def assignments (tokens : List Token) :
    Except SyntaxFault (Parsed (List Place × Expr) tokens) := do
  let equals ← expect .assign tokens
  have := equals.shorter
  let value ← expression equals.rest
  have := value.shorter
  if (peek value.rest).kind = .assign then
    match value.value.place? with
    | some place =>
        let more ← assignments value.rest
        return (more.map fun m => (place :: m.1, m.2)).widen (by omega)
    | none => reject equals.value (.notAssignable value.value)
  else
    return (value.map fun v => ([], v)).widen (by omega)
termination_by tokens.length

/- Reads `+=` or `-=` and a value. -/
def augmentation (op : Augment) (kind : Kind) (start : Token) (target : Expr)
    (tokens : List Token) : Except SyntaxFault (Parsed Stmt tokens) := do
  let sign ← expect kind tokens
  match target.place? with
  | none => reject start (.notAssignable target)
  | some place =>
      let value ← expression sign.rest
      return (value.map fun v => .augment start.line place op v).widen
        (Nat.le_of_lt sign.shorter)

/- Reads on after the first expression of a statement. -/
def afterExpression (start : Token) (first : Expr)
    (tokens : List Token) : Except SyntaxFault (Within Stmt tokens) :=
  match (peek tokens).kind with
  | .assign => do
      let assigned ← assignments tokens
      match first.place? with
      | some place =>
          return ⟨.assign start.line place assigned.value.1 assigned.value.2,
            assigned.rest, Nat.le_of_lt assigned.shorter⟩
      | none => reject start (.notAssignable first)
  | .plusAssign => do
      let stmt ← augmentation .add .plusAssign start first tokens
      return ⟨stmt.value, stmt.rest, Nat.le_of_lt stmt.shorter⟩
  | .minusAssign => do
      let stmt ← augmentation .sub .minusAssign start first tokens
      return ⟨stmt.value, stmt.rest, Nat.le_of_lt stmt.shorter⟩
  | _ => .ok (.here (.expr start.line first) tokens)

/- Reads a statement that fits on one line, without its end. -/
def simple (tokens : List Token) : Except SyntaxFault (Parsed Stmt tokens) :=
  let start := peek tokens
  match start.kind with
  | .kwPass => do
      let word ← expect .kwPass tokens
      return word.map fun _ => .pass start.line
  | .kwBreak => do
      let word ← expect .kwBreak tokens
      return word.map fun _ => .breakLoop start.line
  | .kwContinue => do
      let word ← expect .kwContinue tokens
      return word.map fun _ => .continueLoop start.line
  | .kwReturn => do
      let word ← expect .kwReturn tokens
      let next := (peek word.rest).kind
      if next = .newline ∨ next = .eof then
        return word.map fun _ => .ret start.line none
      else
        let value ← expression word.rest
        return (value.map fun v => .ret start.line (some v)).widen
          (Nat.le_of_lt word.shorter)
  | _ => do
      let first ← expression tokens
      let whole ← afterExpression start first.value first.rest
      return whole.parsed first.shorter

/-
  Reads the parameters of a function up to and with the
  closing parenthesis. `seen` holds those read before.
-/
def parameters (function : String) (seen : List String)
    (tokens : List Token) : Except SyntaxFault (Parsed (List String) tokens) :=
  if (peek tokens).kind = .rightParen then do
    let close ← expect .rightParen tokens
    return close.map fun _ => []
  else do
    let param ← expect .identifier tokens
    have := param.shorter
    let name := param.value.lexeme
    if name ∈ seen then
      reject param.value (.duplicateParameter name function)
    else if (peek param.rest).kind = .comma then
      let comma ← expect .comma param.rest
      have := comma.shorter
      let more ← parameters function (name :: seen) comma.rest
      return (more.map (name :: ·)).widen (by omega)
    else
      let close ← expect .rightParen param.rest
      return (close.map fun _ => [name]).widen (by omega)
termination_by tokens.length

mutual

/- Reads a statement with the end of its line. -/
def statement (tokens : List Token) : Except SyntaxFault (Parsed Stmt tokens) :=
  let start := peek tokens
  match start.kind with
  | .kwIf => do
      let word ← expect .kwIf tokens
      have := word.shorter
      let stmt ← conditional start.line word.rest
      return stmt.widen (by omega)
  | .kwWhile => do
      let word ← expect .kwWhile tokens
      have := word.shorter
      let test ← expression word.rest
      have := test.shorter
      let body ← block test.rest
      return (body.map fun b => .loop start.line test.value b).widen (by omega)
  | .kwFor => do
      let word ← expect .kwFor tokens
      have := word.shorter
      let target ← expect .identifier word.rest
      have := target.shorter
      let link ← expect .kwIn target.rest
      have := link.shorter
      let source ← expression link.rest
      have := source.shorter
      let body ← block source.rest
      return (body.map fun b =>
        .each start.line target.value.lexeme source.value b).widen (by omega)
  | .kwDef => do
      let word ← expect .kwDef tokens
      have := word.shorter
      let name ← expect .identifier word.rest
      have := name.shorter
      let paren ← expect .leftParen name.rest
      have := paren.shorter
      let params ← parameters name.value.lexeme [] paren.rest
      have := params.shorter
      let body ← block params.rest
      return (body.map fun b =>
        .define start.line name.value.lexeme params.value b).widen (by omega)
  | .indent => reject start .unexpectedIndent
  | .kwElif => reject start (.branchWithoutIf start.lexeme)
  | .kwElse => reject start (.branchWithoutIf start.lexeme)
  | _ => do
      let stmt ← simple tokens
      let line ← endOfLine stmt.rest
      return ⟨stmt.value, line.rest, Nat.lt_of_le_of_lt line.notLonger stmt.shorter⟩
termination_by 4 * tokens.length + 2

/- Reads a conditional behind its first word. -/
def conditional (line : Int)
    (tokens : List Token) : Except SyntaxFault (Parsed Stmt tokens) := do
  let test ← expression tokens
  have := test.shorter
  let body ← block test.rest
  have := body.shorter
  match (peek body.rest).kind with
  | .kwElif =>
      let word ← expect .kwElif body.rest
      have := word.shorter
      let nested ← conditional word.value.line word.rest
      return (nested.map fun n => .cond line test.value body.value [n]).widen (by omega)
  | .kwElse =>
      let word ← expect .kwElse body.rest
      have := word.shorter
      let orElse ← block word.rest
      return (orElse.map fun b => .cond line test.value body.value b).widen (by omega)
  | _ =>
      return (body.map fun b => .cond line test.value b []).widen (by omega)
termination_by 4 * tokens.length + 1

/- Reads a colon and the statements it introduces. -/
def block
    (tokens : List Token) : Except SyntaxFault (Parsed (List Stmt) tokens) := do
  let colon ← expect .colon tokens
  have := colon.shorter
  if (peek colon.rest).kind = .newline then
    let newline ← expect .newline colon.rest
    have := newline.shorter
    let indent ← expect .indent newline.rest
    have := indent.shorter
    let body ← statements indent.rest
    return body.widen (by omega)
  else
    let stmt ← simple colon.rest
    have := stmt.shorter
    let line ← endOfLine stmt.rest
    have := line.notLonger
    return ⟨[stmt.value], line.rest, by omega⟩
termination_by 4 * tokens.length

/- Reads statements up to and with the end of their block. -/
def statements
    (tokens : List Token) : Except SyntaxFault (Parsed (List Stmt) tokens) :=
  if (peek tokens).kind = .dedent ∨ (peek tokens).kind = .eof then do
    let close ← expect .dedent tokens
    return close.map fun _ => []
  else do
    let stmt ← statement tokens
    have := stmt.shorter
    let more ← statements stmt.rest
    return (more.map (stmt.value :: ·)).widen (by omega)
termination_by 4 * tokens.length + 3

end

/- Reads statements up to the end of input. -/
def script (tokens : List Token) : Except SyntaxFault (List Stmt) :=
  match tokens with
  | [] => .ok []
  | token :: rest =>
      if token.kind = .eof then
        .ok []
      else if token.kind = .newline then
        script rest
      else do
        let stmt ← statement (token :: rest)
        have := stmt.shorter
        let more ← script stmt.rest
        return stmt.value :: more
termination_by tokens.length
decreasing_by
  · exact Nat.lt_succ_self _
  · assumption

end Parser

/-
  Reads the statements of a script from its tokens. The
  source text only serves to show the line of an error.
-/
def parse (tokens : List Token)
    (source : String) : Except SyntaxError (List Stmt) :=
  match Parser.script tokens with
  | .ok stmts => .ok stmts
  | .error fault => .error (.ofFault source fault)

inductive SourceError where
  | lexical (e : Lexer.Error)
  | syntactic (e : SyntaxError)

def SourceError.message : SourceError → String
  | lexical e => e.message
  | syntactic e => e.message

def parseSource (source : String) : Except SourceError (List Stmt) :=
  match lex source with
  | .error failure => .error (.lexical failure.error)
  | .ok tokens =>
      match parse tokens source with
      | .error e => .error (.syntactic e)
      | .ok stmts => .ok stmts

end Script

end Pep9
