import Pep9.Script.Stmt

/-
  The statements of a scope in the order of the text. Blocks
  of conditionals and loops are opened; bodies of functions
  are not.

  Key definitions: `Located`, `flatten`.
-/

namespace Pep9

open Script (Stmt)

namespace Compile

/-
  A statement with its line, or with the line of the nearest
  statement around it that has one.
-/
structure Located where
  line : Int
  stmt : Stmt

def innerLine (outer : Int) (line : Int) : Int :=
  if line = 0 then outer else line

mutual

/- A statement, or the statements of its blocks. -/
def flattenStmt (outer : Int) : Stmt → List Located
  | .cond line _ body orElse =>
      flatten (innerLine outer line) body
        ++ flatten (innerLine outer line) orElse
  | .loop line _ body => flatten (innerLine outer line) body
  | .each line _ _ body => flatten (innerLine outer line) body
  | stmt => [⟨innerLine outer stmt.line, stmt⟩]

def flatten (outer : Int) : List Stmt → List Located
  | [] => []
  | stmt :: rest => flattenStmt outer stmt ++ flatten outer rest

end

end Compile

end Pep9
