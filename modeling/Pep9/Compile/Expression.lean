import Pep9.Compile.Operand

/-
  Code of expressions and of calls.

  Key definitions: `needsAccumulator`, `exprCode`, `argsCode`,
  `callCode`, `isInput`.
-/

namespace Pep9

open Isa (Mnemonic)
open Listing (Instruction)
open Script (Expr)

namespace Compile

/-
  Whether the value of an expression has to be computed in
  the accumulator, because the index register is needed for
  a subscript or lost in a call.
-/
def needsAccumulator : Expr → Bool
  | .index _ _ => true
  | .call _ _ => true
  | .arith _ left right => needsAccumulator left || needsAccumulator right
  | _ => false

def resultRegister (e : Expr) (r : Register) : Register :=
  if needsAccumulator e then .a else r

def hasCall : Expr → Bool
  | .call _ _ => true
  | .arith _ left right => hasCall left || hasCall right
  | _ => false

def nameOf? : Expr → Option String
  | .name id => some id
  | _ => none

def builtins : List String :=
  ["int", "input", "print", "exit"]

/-
  Whether an expression reads a number, as it is or passed
  through `int`.
-/
def isInput : Expr → Except Error Bool
  | .call function args =>
      match args with
      | [arg] =>
          if function = "int" then
            isInput arg
          else if function = "input" then
            .error (.unsupported .inputArguments)
          else
            .ok false
      | _ =>
          if function ≠ "input" then
            .ok false
          else if args.isEmpty then
            .ok true
          else
            .error (.unsupported .inputArguments)
  | _ => .ok false

/- Moves the stack pointer, unless there is nothing to move. -/
def adjustStack (op : Mnemonic) (bytes : Int64) : Code :=
  if bytes > 0 then
    [.of op (.number bytes) .immediate]
  else
    []

/- A function that is called, and its label. -/
structure Callee where
  sig : Signature
  label : String

namespace Context

def signature? (ctx : Context) (name : String) : Option Signature :=
  ctx.functions.find? fun sig => sig.name = name

/- The function that a call with some arguments is for. -/
def callee (ctx : Context) (name : String)
    (given : Nat) : Except Error Callee :=
  match ctx.signature? name with
  | none => .error (.of (.unsupportedFunction name))
  | some sig => do
      let label ← ctx.table.labelTarget name
      if given = sig.params.length then
        return ⟨sig, label⟩
      else
        throw
          (.unsupported (.argumentCount name sig.params.length given))

def checkReturns (ctx : Context) (name : String) : Except Error Unit :=
  match ctx.signature? name with
  | some sig =>
      if sig.hasReturn then
        .ok ()
      else
        .error (.unsupported (.missingValue name))
  | none => .ok ()

/- Stores the accumulator at an offset from the stack pointer. -/
def storeAt (slot : Int64) : Instruction :=
  .of .stwa (.number slot) .stackRelative

/-
  Stores a variable as an argument. Of an array the address
  is stored.
-/
def nameArgument (ctx : Context) (slot : Int64)
    (name : String) : Except Error Code := do
  let ref ← ctx.reference name
  match ref.mode with
  | .indexed =>
      return [.of .ldwa (.symbol ref.target) .immediate, storeAt slot]
  | .stackIndexed =>
      return [.plain .movspa, .of .adda (.symbol ref.target) .immediate,
        storeAt slot]
  | .stackDeferredIndexed =>
      return [.of .ldwa (.symbol ref.target) .stackRelative, storeAt slot]
  | mode =>
      let r := ctx.registerFor name
      return [.of r.load (.symbol ref.target) mode,
        .of r.store (.number slot) .stackRelative]

end Context

namespace Callee

def firstSlot (callee : Callee) : Int64 :=
  -callee.sig.argBytes

/-
  What follows the storing of the arguments: the call itself
  between moves of the stack pointer, and the load of the
  value returned.
-/
def transfer (callee : Callee) : Code :=
  let bytes := callee.sig.argBytes
  adjustStack .subsp bytes
    ++ [.jump .call callee.label]
    ++ (if callee.sig.hasReturn then
          adjustStack .addsp (bytes - 2)
            ++ [.of .ldwa (.number 0) .stackRelative]
            ++ adjustStack .addsp 2
        else
          adjustStack .addsp bytes)

end Callee

def arithOp? : Script.Arith → Option (Register → Mnemonic)
  | .add => some Register.add
  | .sub => some Register.subtract
  | _ => none

mutual

/-
  The code that leaves the value of an expression in its
  `resultRegister`.
-/
def exprCode (ctx : Context) (r : Register) : Expr → Except Error Code
  | .literal value => ctx.operandCode Register.load r (.literal value)
  | .name id => ctx.operandCode Register.load r (.name id)
  | .index base position =>
      ctx.operandCode Register.load .a (.element base position)
  | .arith op left right =>
      match arithOp? op with
      | none => .error (.of (.unsupportedOperator op.symbol))
      | some apply =>
          match simple? right with
          | none => .error (.unsupported (.rightOperand right.describe))
          | some operand => do
              let r' := resultRegister (.arith op left right) r
              let first ← exprCode ctx r' left
              let second ← ctx.operandCode apply r' operand
              return first ++ second
  | .call function args =>
      if function = "int" then
        match args with
        | [arg] => exprCode ctx .a arg
        | _ => .error (.unsupported .intArguments)
      else if function = "input" then
        .error (.unsupported .inputValue)
      else if function = "print" ∨ function = "exit" then
        .error (.unsupported (.procedureValue function))
      else do
        ctx.checkReturns function
        let callee ← ctx.callee function args.length
        let stores ← argsCode ctx callee.firstSlot args
        return stores ++ callee.transfer
  | .unary op _ => .error (.of (.unsupportedOperator op.symbol))
  | .logic op _ _ => .error (.of (.unsupportedOperator op.symbol))
  | .compare left chain =>
      .error
        (.unsupported (.comparisonValue (Expr.compare left chain).describe))
  | .string value =>
      .error (.unsupported (.stringValue (Expr.string value).describe))
  | .list _ => .error (.unsupported .listValue)

def argsCode (ctx : Context) (slot : Int64) : List Expr → Except Error Code
  | [] => .ok []
  | arg :: rest => do
      let first ←
        match nameOf? arg with
        | some id => ctx.nameArgument slot id
        | none =>
            if hasCall arg then
              .error (.unsupported (.callArgument arg.describe))
            else
              (exprCode ctx .a arg).map (· ++ [Context.storeAt slot])
      let others ← argsCode ctx (slot + 2) rest
      return first ++ others

end

/- The code of a call whose value, if any, is not used. -/
def callCode (ctx : Context) (function : String)
    (args : List Expr) : Except Error Code := do
  let callee ← ctx.callee function args.length
  let stores ← argsCode ctx callee.firstSlot args
  return stores ++ callee.transfer

end Compile

end Pep9
