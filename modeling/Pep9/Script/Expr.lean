import Pep9.Text.Quoted

/-
  Expressions of the script language and their texts.

  Key definitions: `Expr`, `Chain`, `Place`, `Expr.describe`,
  `Expr.place?`.
-/

namespace Pep9

namespace Script

inductive Arith where
  | add
  | sub
  | mul
  | div
  | mod
deriving DecidableEq, Repr

def Arith.symbol : Arith → String
  | add => "+"
  | sub => "-"
  | mul => "*"
  | div => "/"
  | mod => "%"

inductive Comparison where
  | less
  | lessEquals
  | greater
  | greaterEquals
  | equals
  | notEquals
deriving DecidableEq, Repr

def Comparison.symbol : Comparison → String
  | less => "<"
  | lessEquals => "<="
  | greater => ">"
  | greaterEquals => ">="
  | equals => "=="
  | notEquals => "!="

inductive Logic where
  | and
  | or
deriving DecidableEq, Repr

def Logic.symbol : Logic → String
  | and => "and"
  | or => "or"

/- Operators in front of one operand. -/
inductive Unary where
  | not
  | negate
deriving DecidableEq, Repr

def Unary.symbol : Unary → String
  | not => "not"
  | negate => "-"

mutual

/-
  Expressions. A minus sign in front of an integer is part
  of the literal.
-/
inductive Expr where
  | literal (value : Int64)
  | string (value : String)
  | list (elements : List Expr)
  | name (id : String)
  | arith (op : Arith) (left : Expr) (right : Expr)
  | compare (left : Expr) (chain : Chain)
  | logic (op : Logic) (left : Expr) (right : Expr)
  | unary (op : Unary) (operand : Expr)
  | call (function : String) (args : List Expr)
  | index (base : Expr) (position : Expr)

/-
  The comparisons that follow the first operand of a chain
  such as `a < b <= c`. There is at least one.
-/
inductive Chain where
  | last (op : Comparison) (right : Expr)
  | link (op : Comparison) (right : Expr) (rest : Chain)

end

instance : Inhabited Expr :=
  ⟨.literal 0⟩

/- What an assignment can store to. -/
inductive Place where
  | name (id : String)
  | element (base : Expr) (position : Expr)

namespace Chain

def operators : Chain → List Comparison
  | last op _ => [op]
  | link op _ rest => op :: rest.operators

def operands : Chain → List Expr
  | last _ right => [right]
  | link _ right rest => right :: rest.operands

/- A chain with one more comparison at its end. -/
def snoc (chain : Chain) (op : Comparison) (right : Expr) : Chain :=
  match chain with
  | last op₁ right₁ => link op₁ right₁ (last op right)
  | link op₁ right₁ rest => link op₁ right₁ (rest.snoc op right)

end Chain

/- Texts between brackets, set apart by spaces. -/
def bracketed (texts : List String) : String :=
  "[" ++ " ".intercalate texts ++ "]"

mutual

/- The text of an expression, with all operators in parentheses. -/
def Expr.describe : Expr → String
  | .literal value => toString value
  | .string value => Text.quoted value
  | .list elements =>
      "ListLiteral(len=" ++ toString elements.length ++ ", "
        ++ bracketed (describeAll elements) ++ ")"
  | .name id => id
  | .arith op left right =>
      "(" ++ left.describe ++ " " ++ op.symbol ++ " " ++ right.describe ++ ")"
  | .compare left chain => "(" ++ left.describe ++ chain.describe ++ ")"
  | .logic op left right =>
      "(" ++ left.describe ++ " " ++ op.symbol ++ " " ++ right.describe ++ ")"
  | .unary op operand => "(" ++ op.symbol ++ " " ++ operand.describe ++ ")"
  | .call function args =>
      "FunctionCall(" ++ function ++ ", args=" ++ bracketed (describeAll args) ++ ")"
  | .index base position => base.describe ++ "[" ++ position.describe ++ "]"

/- The texts of the comparisons of a chain, each after a space. -/
def Chain.describe : Chain → String
  | .last op right => " " ++ op.symbol ++ " " ++ right.describe
  | .link op right rest => " " ++ op.symbol ++ " " ++ right.describe ++ rest.describe

def describeAll : List Expr → List String
  | [] => []
  | e :: rest => e.describe :: describeAll rest

end

namespace Place

/- The expression that reads a place. -/
def toExpr : Place → Expr
  | name id => .name id
  | element base position => .index base position

def describe (place : Place) : String :=
  place.toExpr.describe

end Place

/- The place that an expression denotes, if it denotes one. -/
def Expr.place? : Expr → Option Place
  | .name id => some (.name id)
  | .index base position => some (.element base position)
  | _ => none

end Script

end Pep9
