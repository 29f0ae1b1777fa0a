import Pep9.Script.Expr

/-
  Statements of the script language and their texts.

  Key definitions: `Stmt`, `Stmt.line`, `Stmt.describe`,
  `outline`.
-/

namespace Pep9

namespace Script

/- Assignments that also read their target. -/
inductive Augment where
  | add
  | sub
deriving DecidableEq, Repr

def Augment.symbol : Augment → String
  | add => "+="
  | sub => "-="

/-
  Statements, each with the line on which it starts. The
  else branch of a conditional is empty when there is none;
  an `elif` is a conditional alone in an else branch.
-/
inductive Stmt where
  | assign (line : Int) (first : Place) (others : List Place) (value : Expr)
  | augment (line : Int) (target : Place) (op : Augment) (value : Expr)
  | expr (line : Int) (value : Expr)
  | ret (line : Int) (value : Option Expr)
  | cond (line : Int) (test : Expr) (body : List Stmt) (orElse : List Stmt)
  | loop (line : Int) (test : Expr) (body : List Stmt)
  | each (line : Int) (target : String) (source : Expr) (body : List Stmt)
  | define (line : Int) (name : String) (params : List String) (body : List Stmt)
  | pass (line : Int)
  | breakLoop (line : Int)
  | continueLoop (line : Int)

instance : Inhabited Stmt :=
  ⟨.pass 0⟩

namespace Stmt

/- The line on which a statement starts. -/
def line : Stmt → Int
  | assign line _ _ _ => line
  | augment line _ _ _ => line
  | expr line _ => line
  | ret line _ => line
  | cond line _ _ _ => line
  | loop line _ _ => line
  | each line _ _ _ => line
  | define line _ _ _ => line
  | pass line => line
  | breakLoop line => line
  | continueLoop line => line

def countText (stmts : List Stmt) : String :=
  toString stmts.length ++ " stmts"

/- The text of a statement without its nested statements. -/
def describe : Stmt → String
  | assign _ first others value =>
      "Assignment(" ++ bracketed ((first :: others).map Place.describe)
        ++ " = " ++ value.describe ++ ")"
  | augment _ target op value =>
      "Assignment(" ++ bracketed [target.describe]
        ++ " " ++ op.symbol ++ " " ++ value.describe ++ ")"
  | expr _ value => "ExprStmt(" ++ value.describe ++ ")"
  | ret _ (some value) => "ReturnStmt(" ++ value.describe ++ ")"
  | ret _ none => "ReturnStmt(%!s(<nil>))"
  | cond _ test body orElse =>
      "IfStmt(if " ++ test.describe ++ " then " ++ countText body
        ++ (if orElse.isEmpty then "" else " else " ++ countText orElse) ++ ")"
  | loop _ test body =>
      "WhileStmt(while " ++ test.describe ++ " do " ++ countText body ++ ")"
  | each _ target source body =>
      "ForStmt(" ++ target ++ " in " ++ source.describe
        ++ ", body=" ++ countText body ++ ")"
  | define _ name params body =>
      "FunctionDecl(" ++ name ++ ", params=" ++ bracketed params
        ++ ", body=" ++ countText body ++ ")"
  | pass _ => "PassStmt"
  | breakLoop _ => "BreakStmt"
  | continueLoop _ => "ContinueStmt"

end Stmt

/- One line of an outline: nesting depth, line and text. -/
structure OutlineEntry where
  depth : Nat
  line : Int
  text : String

mutual

/- A statement and the statements nested in it, depth first. -/
def Stmt.outline (depth : Nat) : Stmt → List OutlineEntry
  | .cond line test body orElse =>
      ⟨depth, line, (Stmt.cond line test body orElse).describe⟩
        :: (outline (depth + 1) body ++ outline (depth + 1) orElse)
  | .loop line test body =>
      ⟨depth, line, (Stmt.loop line test body).describe⟩ :: outline (depth + 1) body
  | .each line target source body =>
      ⟨depth, line, (Stmt.each line target source body).describe⟩
        :: outline (depth + 1) body
  | .define line name params body =>
      ⟨depth, line, (Stmt.define line name params body).describe⟩
        :: outline (depth + 1) body
  | stmt => [⟨depth, stmt.line, stmt.describe⟩]

def outline (depth : Nat) : List Stmt → List OutlineEntry
  | [] => []
  | stmt :: rest => stmt.outline depth ++ outline depth rest

end

end Script

end Pep9
