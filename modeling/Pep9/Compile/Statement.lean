import Pep9.Compile.Condition
import Pep9.Compile.Expression

/-
  Code of statements.

  Key definitions: `Generator`, `Generator.assignCode`,
  `Generator.printCode`, `stmtCode`, `blockCode`.
-/

namespace Pep9

open Listing (Instruction Frame)
open Script (Expr Stmt Place)

namespace Compile

/- The function whose body is compiled, and its symbols. -/
structure FunctionScope where
  sig : Signature
  table : SymbolTable

/-
  The state of code generation. `table` and `slicing` belong
  to the top level. `arrays` holds the targets of all arrays.
  The numbers are those of the next loop, the next
  conditional and the last landing label.
-/
structure Generator where
  usual : Int64
  table : SymbolTable
  slicing : List String
  inside : Option FunctionScope
  functions : List Signature
  frames : List Frame
  arrays : List String
  loops : Nat
  conds : Nat
  landings : Nat

namespace Generator

def context (g : Generator) : Context :=
  match g.inside with
  | none => ⟨g.table, none, g.slicing, g.functions, g.arrays⟩
  | some f => ⟨f.table, some f.sig, f.sig.slicing, g.functions, g.arrays⟩

/- Takes the mark of a declared first value away. -/
def unmarkSpecial (g : Generator) (target : String) : Generator :=
  match g.inside with
  | none => { g with table := g.table.unmarkSpecial target }
  | some f =>
      { g with inside := some { f with table := f.table.unmarkSpecial target } }

def label (g : Generator) (stem : String)
    (id : Nat) : Except Error (String × Generator) := do
  let (label, table) ← g.table.generate stem id
  return (label, { g with table := table })

end Generator

/- The stem of labels to which control returns after a function. -/
def landingStem : String :=
  "tl_"

def loopStem : String :=
  "wh_"

def loopEndStem : String :=
  "ew_"

def condStem : String :=
  "if_"

def elseStem : String :=
  "el_"

def condEndStem : String :=
  "ei_"

/- A labelled instruction that does nothing. -/
def mark (label : String) : Instruction :=
  (Instruction.plain .nop1).labelled label

namespace Generator

/- Computes a value and stores it in a variable. -/
def storeCode (g : Generator) (name : String) (ref : Reference)
    (value : Expr) : Except Error Code := do
  if ← isInput value then
    return [.of .deci (.symbol ref.target) ref.mode]
  else
    let r := resultRegister value (g.context.registerFor name)
    let code ← exprCode g.context (g.context.registerFor name) value
    return code ++ [.of r.store (.symbol ref.target) ref.mode]

/-
  Assigns to a variable. Nothing is done where the declaration
  has the value already.
-/
def assignName (g : Generator) (name : String)
    (value : Expr) : Except Error (Code × Generator) :=
  match g.context.reference name with
  | .error e =>
      if isConstantName name then
        .error (.of (.constantReassigned name))
      else
        .error e
  | .ok ref =>
      if g.context.table.isSpecial ref.target then
        .ok ([], g.unmarkSpecial ref.target)
      else if isConstantName name then
        .error (.of (.constantReassigned name))
      else if ref.mode.isIndexed then
        .error (.unsupported (.arrayReassigned name))
      else do
        return (← g.storeCode name ref value, g)

/-
  Assigns to an element. The value is computed first, so that
  the index register is free for the offset.
-/
def assignElement (g : Generator) (base : Expr) (position : Expr)
    (value : Expr) : Except Error Code := do
  let ref ← g.context.arrayReference base
  if ← isInput value then
    let offset ← g.context.indexCode position
    return offset ++ [.of .deci (.symbol ref.target) ref.mode]
  else
    let code ← exprCode g.context .a value
    let offset ← g.context.indexCode position
    return code ++ offset ++ [.of .stwa (.symbol ref.target) ref.mode]

def assignCode (g : Generator) (first : Place) (others : List Place)
    (value : Expr) : Except Error (Code × Generator) := do
  checkTargets others
  match first with
  | .name id => g.assignName id value
  | .element base position =>
      return (← g.assignElement base position value, g)

/- The word below the stack in which a value is printed from. -/
def scratch : Listing.Operand :=
  .number (-2)

def printValue (g : Generator) : Expr → Except Error Code
  | .literal value => do
      checkWord value
      return [.of .deco (.number value) .immediate]
  | .name id => do
      let ref ← g.context.reference id
      if ref.mode.isIndexed then
        throw (.unsupported (.printArray id))
      else
        return [.of .deco (.symbol ref.target) ref.mode]
  | .index base position => g.context.elementCode .deco base position
  | .string value =>
      .error (.unsupported (.printString (Expr.string value).describe))
  | value => do
      let code ← exprCode g.context .a value
      return code ++ [.of .stwa scratch .stackRelative,
        .of .deco scratch .stackRelative]

def printCode (g : Generator) (args : List Expr) : Except Error Code :=
  match args with
  | [arg] => g.printValue arg
  | _ => .error (.unsupported .printArguments)

def callStmtCode (g : Generator) (function : String)
    (args : List Expr) : Except Error Code :=
  if function = "print" then
    g.printCode args
  else if function = "exit" then
    if args.isEmpty then
      .ok [.plain .stop]
    else
      .error (.unsupported .exitArguments)
  else if function = "input" ∨ function = "int" then
    exprCode g.context .a (.call function args)
  else
    callCode g.context function args

def exprStmtCode (g : Generator) : Expr → Except Error Code
  | .call function args => g.callStmtCode function args
  | value => .error (.unsupported (.strayExpression value.describe))

def returnCode (g : Generator) (value : Option Expr) : Except Error Code :=
  match g.inside with
  | none => .error (.unsupported .strayReturn)
  | some f => do
      let leave := adjustStack .addsp f.sig.localsSize ++ [.plain .ret]
      match value with
      | none => return leave
      | some e =>
          let code ← exprCode g.context .a e
          let slot ← f.table.dataTarget returnSource
          return code ++ [.of .stwa (.symbol slot) .stackRelative] ++ leave

------------------------------------------------------------
-- Functions
------------------------------------------------------------

/- What is known of a function before its body is compiled. -/
structure Entry where
  sig : Signature
  label : String
  landing : String
  table : SymbolTable

def checkDefinition (g : Generator) (name : String) : Except Error Unit :=
  if g.inside.isSome then
    .error (.unsupported (.nestedFunction name))
  else if builtins.contains name then
    .error (.unsupported (.builtinRedefined name))
  else if g.functions.any fun sig => sig.name = name then
    .error (.unsupported (.functionRedefined name))
  else
    .ok ()

def arrayTargets (sig : Signature) (table : SymbolTable) : List String :=
  ((sig.locals.map Local.name ++ sig.params).filter isArrayName).map
    fun name => ((table.lookup? name).map Binding.target).getD ""

/- Enters a function: its name, its frame and its labels. -/
def enter (g : Generator) (name : String) (params : List String)
    (body : List Stmt) : Except Error (Entry × Generator) := do
  g.checkDefinition name
  let (label, table) ← g.table.bindGlobal .label name
  let sig ← analyzeFunction g.usual name params body
  let frame := allocateFrame table.child sig
  match frame.error with
  | some e => throw e
  | none =>
      let (landing, table) ← table.generate landingStem (g.landings + 1)
      return (⟨sig, label, landing, frame.table⟩,
        { g with
          table := table
          inside := some ⟨sig, frame.table⟩
          functions := g.functions ++ [sig]
          frames := g.frames ++ [⟨name, frame.decls⟩]
          arrays := g.arrays ++ arrayTargets sig frame.table
          landings := g.landings + 1 })

def leave (g : Generator) (entry : Entry) : Generator :=
  { g with
    inside := none
    table := g.table.merge entry.table }

end Generator

def endsWithReturn (body : List Stmt) : Bool :=
  match body.getLast? with
  | some (.ret _ _) => true
  | _ => false

/- A function around the code of its body. -/
def Generator.Entry.wrap (entry : Generator.Entry) (body : List Stmt)
    (code : Code) : Code :=
  [.jump .br entry.landing, mark entry.label]
    ++ adjustStack .subsp entry.sig.localsSize
    ++ code
    ++ (if endsWithReturn body then
          []
        else
          adjustStack .addsp entry.sig.localsSize ++ [.plain .ret])
    ++ [mark entry.landing]

mutual

/- The code of a statement. Errors get its line. -/
def stmtCode (g : Generator) : Stmt → Except Error (Code × Generator)
  | .assign line first others value =>
      located line (g.assignCode first others value)
  | .augment line _ op _ =>
      located line (.error (.unsupported (.augmented op.symbol)))
  | .expr line value =>
      located line do
        return (← g.exprStmtCode value, g)
  | .ret line value =>
      located line do
        return (← g.returnCode value, g)
  | .loop line test body =>
      located line do
        let (start, g₁) ← g.label loopStem g.loops
        let (exit, g₂) ← g₁.label loopEndStem g.loops
        let condition ← g₂.context.conditionCode start exit test
        let (code, g₃) ← blockCode { g₂ with loops := g.loops + 1 } body
        return (condition ++ code ++ [.jump .br start, mark exit], g₃)
  | .cond line test body orElse =>
      located line do
        let (start, g₁) ← g.label condStem g.conds
        let (exit, g₂) ← g₁.label condEndStem g.conds
        if orElse.isEmpty then
          let condition ← g₂.context.conditionCode start exit test
          let (code, g₃) ← blockCode { g₂ with conds := g.conds + 1 } body
          return (condition ++ code ++ [.jump .br exit, mark exit], g₃)
        else
          let (other, g₃) ← g₂.label elseStem g.conds
          let condition ← g₃.context.conditionCode start other test
          let (code, g₄) ← blockCode { g₃ with conds := g.conds + 1 } body
          let (elseCode, g₅) ← blockCode g₄ orElse
          return (condition ++ code ++ [.jump .br exit, mark other]
            ++ elseCode ++ [mark exit], g₅)
  | .define line name params body =>
      located line do
        let (entry, g₁) ← g.enter name params body
        let (code, g₂) ← blockCode g₁ body
        return (entry.wrap body code, g₂.leave entry)
  | .pass _ => .ok ([], g)
  | .each line _ _ _ => located line (.error (.unsupported .forLoop))
  | .breakLoop line => located line (.error (.unsupported .breakLoop))
  | .continueLoop line => located line (.error (.unsupported .continueLoop))

def blockCode (g : Generator) : List Stmt → Except Error (Code × Generator)
  | [] => .ok ([], g)
  | stmt :: rest => do
      let (first, g₁) ← stmtCode g stmt
      let (others, g₂) ← blockCode g₁ rest
      return (first ++ others, g₂)

end

end Compile

end Pep9
