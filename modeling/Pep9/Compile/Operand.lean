import Pep9.Compile.Allocation

/-
  Operands of instructions: how a variable is addressed, and
  the code that applies one instruction to a literal, a
  variable or an element of an array.

  Key definitions: `Register`, `Context`, `Context.reference`,
  `Simple`, `Context.operandCode`.
-/

namespace Pep9

open Isa (Mnemonic)
open Listing (Instruction Mode)
open Script (Expr)

namespace Compile

abbrev Code :=
  List Instruction

inductive Register where
  | a
  | x
deriving DecidableEq, Repr

namespace Register

def load : Register → Mnemonic
  | a => .ldwa
  | x => .ldwx

def store : Register → Mnemonic
  | a => .stwa
  | x => .stwx

def add : Register → Mnemonic
  | a => .adda
  | x => .addx

def subtract : Register → Mnemonic
  | a => .suba
  | x => .subx

def compare : Register → Mnemonic
  | a => .cpwa
  | x => .cpwx

end Register

/-
  What the code of an expression depends on: the symbols in
  sight, the function around it, the names that index
  targets there, the functions defined so far, and the
  targets of arrays.
-/
structure Context where
  table : SymbolTable
  function : Option Signature
  slicing : List String
  functions : List Signature
  arrays : List String

structure Reference where
  target : String
  mode : Mode
deriving DecidableEq

namespace Context

def isParam (ctx : Context) (name : String) : Bool :=
  ctx.function.any fun sig => sig.params.contains name

/-
  How a variable is addressed. Constants are immediate.
  Arrays are indexed: on the stack when they are local, and
  through an address on the stack when they are parameters.
  All else is on the stack in a function, and in memory
  outside.
-/
def mode (ctx : Context) (name : String) (b : Binding) : Mode :=
  if isConstantName name && b.scope = .global then
    .immediate
  else if ctx.arrays.contains b.target then
    if ctx.function.isSome && b.scope ≠ .global then
      if ctx.isParam name then .stackDeferredIndexed else .stackIndexed
    else
      .indexed
  else if ctx.function.isSome then
    .stackRelative
  else
    .direct

def reference (ctx : Context) (name : String) : Except Error Reference :=
  match ctx.table.lookup? name with
  | some b => .ok ⟨b.target, ctx.mode name b⟩
  | none => .error (.of (.undefinedName name))

/- The register for a variable: names that index use `x`. -/
def registerFor (ctx : Context) (name : String) : Register :=
  if ctx.slicing.contains name then .x else .a

def arrayReference (ctx : Context) (base : Expr) : Except Error Reference :=
  match base with
  | .name id => do
      let ref ← ctx.reference id
      if ref.mode.isIndexed then
        return ref
      else
        throw (.unsupported (.scalarSubscript id))
  | _ => .error (.unsupported (.subscriptOf base.describe))

/- Doubles the index register: elements have two bytes. -/
def scale : Instruction :=
  .plain .aslx

/- Loads the offset of an element into the index register. -/
def indexCode (ctx : Context) (position : Expr) : Except Error Code :=
  match position with
  | .literal value => do
      checkWord (value * 2)
      return [.of .ldwx (.number value) .immediate, scale]
  | .name id => do
      let ref ← ctx.reference id
      if ref.mode.isIndexed then
        throw (.unsupported (.arrayIndex id))
      else
        return [.of .ldwx (.symbol ref.target) ref.mode, scale]
  | _ => .error (.unsupported (.subscriptIndex position.describe))

/-
  Applies an instruction to an element, after loading its
  offset.
-/
def elementCode (ctx : Context) (op : Mnemonic) (base : Expr)
    (position : Expr) : Except Error Code := do
  let ref ← ctx.arrayReference base
  let offset ← ctx.indexCode position
  return offset ++ [.of op (.symbol ref.target) ref.mode]

end Context

/- What can be the operand of a single instruction. -/
inductive Simple where
  | literal (value : Int64)
  | name (id : String)
  | element (base : Expr) (position : Expr)

def simple? : Expr → Option Simple
  | .literal value => some (.literal value)
  | .name id => some (.name id)
  | .index base position => some (.element base position)
  | _ => none

/-
  Applies an instruction, which depends on the register, to
  a simple operand. Elements need the index register for
  their offset.
-/
def Context.operandCode (ctx : Context) (op : Register → Mnemonic)
    (r : Register) : Simple → Except Error Code
  | .literal value => do
      checkWord value
      return [.of (op r) (.number value) .immediate]
  | .name id => do
      let ref ← ctx.reference id
      if ref.mode.isIndexed then
        throw (.unsupported (.arrayValue id))
      else
        return [.of (op r) (.symbol ref.target) ref.mode]
  | .element base position =>
      if r = .x then
        .error
          (.unsupported
            (.subscriptInIndex (Expr.index base position).describe))
      else
        ctx.elementCode (op .a) base position

end Compile

end Pep9
