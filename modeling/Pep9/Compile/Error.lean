import Pep9.Text.Quoted

/-
  Why a script cannot be compiled.

  Key definitions: `Construct`, `Cause`, `Error`,
  `Error.atLine`, `Error.message`.
-/

namespace Pep9

namespace Compile

/- The two uses of target names: storage and places to jump to. -/
inductive SymbolKind where
  | data
  | label
deriving DecidableEq, Repr

def SymbolKind.text : SymbolKind → String
  | data => "data"
  | label => "label"

/-
  What a script may say but a program cannot do. Texts of
  expressions stand for the expressions.
-/
inductive Construct where
  | wideLiteral (value : Int64)
  | arrayLength (length : Int64)
  | targetCount (count : Nat)
  | subscriptOf (base : String)
  | subscriptIndex (position : String)
  | constantValue (name : String)
  | nestedFunction (name : String)
  | longLabel (label : String) (limit : Nat)
  | scalarSubscript (name : String)
  | arrayIndex (name : String)
  | arrayValue (name : String)
  | subscriptInIndex (text : String)
  | rightOperand (text : String)
  | comparisonValue (text : String)
  | stringValue (text : String)
  | listValue
  | inputArguments
  | intArguments
  | inputValue
  | procedureValue (name : String)
  | missingValue (name : String)
  | argumentCount (name : String) (expected : Nat) (given : Nat)
  | callArgument (text : String)
  | augmented (op : String)
  | arrayReassigned (name : String)
  | condition (text : String)
  | chain (text : String)
  | comparisonOperands (text : String)
  | printArguments
  | printArray (name : String)
  | printString (text : String)
  | exitArguments
  | builtinRedefined (name : String)
  | functionRedefined (name : String)
  | strayReturn
  | strayExpression (text : String)
  | forLoop
  | breakLoop
  | continueLoop
deriving DecidableEq

def Construct.text : Construct → String
  | wideLiteral value =>
      "integer literal " ++ toString value ++ " does not fit in 16 bits"
  | arrayLength length => "array length " ++ toString length ++ " out of range"
  | targetCount count => "assignment to " ++ toString count ++ " targets"
  | subscriptOf base => "subscript of " ++ base
  | subscriptIndex position =>
      "subscript index " ++ position ++ " must be a name or an integer"
  | constantValue name =>
      "constant " ++ name ++ " must be initialised with an integer literal"
  | nestedFunction name => "nested function definition " ++ name
  | longLabel label limit =>
      "generated label " ++ label ++ " is longer than " ++ toString limit
        ++ " characters"
  | scalarSubscript name => "subscript of non-array " ++ name
  | arrayIndex name => "array " ++ name ++ " used as an index"
  | arrayValue name => "array " ++ name ++ " used as a value"
  | subscriptInIndex text =>
      "subscript " ++ text ++ " while the index register is in use"
  | rightOperand text =>
      "right operand " ++ text ++ " must be a name, an integer or a subscript"
  | comparisonValue text => "comparison " ++ text ++ " used as a value"
  | stringValue text => "string literal " ++ text
  | listValue => "list literal outside an array initialisation"
  | inputArguments => "input() takes no arguments"
  | intArguments => "int() takes exactly one argument"
  | inputValue => "input() outside an assignment"
  | procedureValue name => name ++ "() used as a value"
  | missingValue name => "function " ++ name ++ " does not return a value"
  | argumentCount name expected given =>
      name ++ "() takes " ++ toString expected ++ " arguments, "
        ++ toString given ++ " given"
  | callArgument text => "call " ++ text ++ " used as an argument"
  | augmented op => "augmented assignment " ++ op
  | arrayReassigned name => "reassignment of array " ++ name
  | condition text => "condition " ++ text ++ " must be a single comparison"
  | chain text => "chained comparison " ++ text
  | comparisonOperands text =>
      "comparison " ++ text
        ++ " must be between names, integers or subscripts"
  | printArguments => "print() takes exactly one argument"
  | printArray name => "print of whole array " ++ name
  | printString text => "print of string literal " ++ text
  | exitArguments => "exit() takes no arguments"
  | builtinRedefined name => "redefinition of built-in " ++ name
  | functionRedefined name => "function " ++ name ++ " defined twice"
  | strayReturn => "return outside a function"
  | strayExpression text => "expression statement " ++ text
  | forLoop => "for loop"
  | breakLoop => "break"
  | continueLoop => "continue"

/- What went wrong, without the place. -/
inductive Cause where
  | undefinedName (name : String)
  | undefinedFunction (name : String)
  | constantReassigned (name : String)
  | unsupported (construct : Construct)
  | unsupportedOperator (op : String)
  | unsupportedFunction (name : String)
  | namesExhausted (kind : SymbolKind) (name : String)
deriving DecidableEq

namespace Cause

def text : Cause → String
  | undefinedName name => "name " ++ Text.quoted name ++ " is not defined"
  | undefinedFunction name =>
      "function " ++ Text.quoted name ++ " is not defined"
  | constantReassigned name => "cannot reassign constant " ++ Text.quoted name
  | unsupported construct => "unsupported construct: " ++ construct.text
  | unsupportedOperator op => "unsupported operator " ++ Text.quoted op
  | unsupportedFunction name => "unsupported function call: " ++ name
  | namesExhausted kind name =>
      "symbol table: no free " ++ kind.text ++ " name for " ++ Text.quoted name

/- All causes have a line but a lack of target names. -/
def hasLine : Cause → Bool
  | namesExhausted _ _ => false
  | _ => true

end Cause

/-
  An error in a script. The line is zero as long as it is
  not known.
-/
structure Error where
  line : Int
  cause : Cause
deriving DecidableEq

namespace Error

def of (cause : Cause) : Error where
  line := 0
  cause := cause

def unsupported (construct : Construct) : Error :=
  of (.unsupported construct)

def atLine (line : Int) (e : Error) : Error :=
  if e.line = 0 ∧ e.cause.hasLine then
    { e with line := line }
  else
    e

/- The wording of an error, with its line when it is known. -/
def message (e : Error) : String :=
  if e.line = 0 then
    e.cause.text
  else
    "line " ++ toString e.line ++ ": " ++ e.cause.text

end Error

def located {α : Type} (line : Int)
    (result : Except Error α) : Except Error α :=
  result.mapError (Error.atLine line)

end Compile

end Pep9
