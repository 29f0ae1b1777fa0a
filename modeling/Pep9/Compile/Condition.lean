import Pep9.Compile.Operand

/-
  Code of the conditions of loops and conditionals.

  Key definitions: `exitBranch`, `labelFirst`,
  `Context.conditionCode`.
-/

namespace Pep9

open Isa (Mnemonic)
open Script (Expr Comparison)

namespace Compile

def exitBranch : Comparison → Mnemonic
  | .less => .brge
  | .lessEquals => .brgt
  | .greater => .brle
  | .greaterEquals => .brlt
  | .equals => .brne
  | .notEquals => .breq

def labelFirst (label : String) : Code → Code
  | [] => []
  | i :: rest => i.labelled label :: rest

/-
  The register in which a comparison takes place: that of
  the variable on its left.
-/
def Context.comparisonRegister (ctx : Context) : Simple → Register
  | .name id => ctx.registerFor id
  | _ => .a

/- Compares two operands and branches when that fails. -/
def Context.compareCode (ctx : Context) (label : String) (exit : String)
    (op : Comparison) (left : Simple) (right : Simple) : Except Error Code := do
  let r := ctx.comparisonRegister left
  let first ← ctx.operandCode Register.load r left
  let second ← ctx.operandCode Register.compare r right
  return labelFirst label first ++ second ++ [.jump (exitBranch op) exit]

/-
  The code of a condition. Its first instruction has `label`,
  and it branches to `exit` when the condition is false.
-/
def Context.conditionCode (ctx : Context) (label : String)
    (exit : String) : Expr → Except Error Code
  | .compare left (.last op right) =>
      match simple? left, simple? right with
      | some l, some r => ctx.compareCode label exit op l r
      | _, _ =>
          .error
            (.unsupported
              (.comparisonOperands
                (Expr.compare left (.last op right)).describe))
  | .compare left chain =>
      .error (.unsupported (.chain (Expr.compare left chain).describe))
  | .logic op _ _ => .error (.of (.unsupportedOperator op.symbol))
  | .unary op _ => .error (.of (.unsupportedOperator op.symbol))
  | test => .error (.unsupported (.condition test.describe))

end Compile

end Pep9
