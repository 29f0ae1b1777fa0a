import Pep9.Compile.Name
import Pep9.Machine.Arithmetic
import Pep9.Machine.DecimalInput
import Pep9.Script.Stmt

/-
  An interpreter of scripts without functions and arrays.
  Variables are words, which start with their declared values:
  the literal of the first assignment, and zero otherwise.

  Key definitions: `isScalar`, `assignments`, `declared`,
  `value?`, `State`, `State.step`, `State.run`.
-/

namespace Pep9

namespace Script

mutual

/- No subscript, and no name of an array. -/
def Expr.isScalar : Expr → Bool
  | .literal _ => true
  | .string _ => true
  | .list elements => allScalar elements
  | .name id => !Compile.isArrayName id
  | .arith _ left right => left.isScalar && right.isScalar
  | .compare left chain => left.isScalar && chain.isScalar
  | .logic _ left right => left.isScalar && right.isScalar
  | .unary _ operand => operand.isScalar
  | .call _ args => allScalar args
  | .index _ _ => false

/- The same for the operands of a chain. -/
def Chain.isScalar : Chain → Bool
  | .last _ right => right.isScalar
  | .link _ right rest => right.isScalar && rest.isScalar

/- The same for several expressions. -/
def allScalar : List Expr → Bool
  | [] => true
  | e :: rest => e.isScalar && allScalar rest

end

mutual

/- A statement without functions, subscripts and arrays. -/
def Stmt.isScalar : Stmt → Bool
  | .assign _ first others value =>
    (first :: others).all (fun place => place.toExpr.isScalar) && value.isScalar
  | .augment _ target _ value => target.toExpr.isScalar && value.isScalar
  | .expr _ value => value.isScalar
  | .ret _ value => value.all Expr.isScalar
  | .cond _ test body orElse => test.isScalar && isScalar body && isScalar orElse
  | .loop _ test body => test.isScalar && isScalar body
  | .each _ target source body => !Compile.isArrayName target && source.isScalar && isScalar body
  | .define _ _ _ _ => false
  | .pass _ => true
  | .breakLoop _ => true
  | .continueLoop _ => true

/- The same for the statements of a script. -/
def isScalar : List Stmt → Bool
  | [] => true
  | stmt :: rest => stmt.isScalar && isScalar rest

end

/- An assignment to a variable, and whether a loop is around. -/
structure Assignment where
  name : String
  value : Expr
  inLoop : Bool

mutual

def Stmt.assignments (inLoop : Bool) : Stmt → List Assignment
  | .assign _ (.name id) _ value => [⟨id, value, inLoop⟩]
  | .cond _ _ body orElse => assignments inLoop body ++ assignments inLoop orElse
  | .loop _ _ body => assignments true body
  | .each _ _ _ body => assignments true body
  | _ => []

def assignments (inLoop : Bool) : List Stmt → List Assignment
  | [] => []
  | stmt :: rest => stmt.assignments inLoop ++ assignments inLoop rest

end

def firstAssignment? (stmts : List Stmt) (name : String) : Option Assignment :=
  (assignments false stmts).find? fun a => a.name = name

/- The number that an expression is, if it is a literal. -/
def Expr.literal? : Expr → Option Int64
  | .literal value => some value
  | _ => none

def wordOf (value : Int64) : UInt16 := UInt16.ofInt value.toInt

/- What the variables start with. -/
def declared (stmts : List Stmt) (name : String) : UInt16 :=
  match (firstAssignment? stmts name).bind (·.value.literal?) with
  | some value => wordOf value
  | none => 0

/- No variable is first set to a literal inside a loop. -/
def DeclaredOutsideLoops (stmts : List Stmt) : Prop :=
  ∀ name a, firstAssignment? stmts name = some a → a.value.literal?.isSome = true → a.inLoop = false

instance (stmts : List Stmt) : Decidable (DeclaredOutsideLoops stmts) :=
  decidable_of_iff (∀ a ∈ assignments false stmts, (firstAssignment? stmts a.name).all fun b =>
        b.value.literal?.isSome = true → b.inLoop = false)
    (by
      constructor
      · intro h name a hFirst
        have hAll := h a (List.mem_of_find?_eq_some hFirst)
        have hName : a.name = name := by
          simpa using List.find?_some hFirst
        rw [hName, hFirst] at hAll
        exact of_decide_eq_true hAll
      · intro h a _
        cases hFirst : firstAssignment? stmts a.name with
        | none => rfl
        | some b => exact decide_eq_true (h a.name b hFirst))

/- The values of all variables. -/
abbrev Store := String → UInt16

/- The store with another value for a variable. -/
def Store.set (store : Store) (name : String) (w : UInt16) : Store :=
  fun other => if other = name then w else store other

/- The value of an expression; sums and differences wrap. -/
def value? (store : Store) : Expr → Option UInt16
  | .literal value => some (wordOf value)
  | .name id => some (store id)
  | .arith op left right =>
    match op, value? store left, value? store right with
    | .add, some a, some b => some (a + b)
    | .sub, some a, some b => some (a - b)
    | _, _, _ => none
  | .call function args =>
    match args with
    | [arg] => if function = "int" then value? store arg else none
    | _ => none
  | _ => none

/- Whether an expression reads a number of the input. -/
def Expr.readsInput : Expr → Bool
  | .call function args =>
    match args with
    | [] => function = "input"
    | [arg] => function = "int" && arg.readsInput
    | _ => false
  | _ => false

/- Whether two words are in the order that an operator asks for. -/
def Comparison.holds (op : Comparison) (a b : UInt16) : Bool :=
  let x := Machine.signed a
  let y := Machine.signed b
  match op with
  | .less => x < y
  | .lessEquals => x ≤ y
  | .greater => y < x
  | .greaterEquals => y ≤ x
  | .equals => x = y
  | .notEquals => x ≠ y

/- Whether a condition holds. -/
def holds? (store : Store) : Expr → Option Bool
  | .compare left (.last op right) =>
    match value? store left, value? store right with
    | some a, some b => some (op.holds a b)
    | _, _ => none
  | _ => none

/-
  A state: the statements that are still to be executed, the
  variables, the input that is still unread and the output so
  far.
-/
structure State where
  todo : List Stmt
  store : Store
  input : List Char
  output : String

/- How an execution ends. What has no meaning gets stuck. -/
inductive Ending where
  | halted
  | failed (fault : Machine.InputFault)
  | stuck
deriving DecidableEq, Repr

namespace State

/- The state before the first statement of a script. -/
def start (stmts : List Stmt) (input : String) : State where
  todo := stmts
  store := declared stmts
  input := input.toList
  output := ""

/- Goes on with other statements. -/
def proceed (s : State) (todo : List Stmt) : State × Option Ending :=
  ({ s with todo := todo }, none)

def finish (s : State) (ending : Ending) : State × Option Ending :=
  (s, some ending)

def assign (s : State) (name : String) (value : Expr) (rest : List Stmt) : State × Option Ending :=
  if value.readsInput then
    match Machine.readNumber s.input with
    | (.error fault, unread) => { s with input := unread }.finish (.failed fault)
    | (.ok n, unread) =>
      { s with
        store := s.store.set name (UInt16.ofInt n)
        input := unread }.proceed rest
  else
    match value? s.store value with
    | some w => { s with store := s.store.set name w }.proceed rest
    | none => s.finish .stuck

def call (s : State) (function : String) (args : List Expr)
    (rest : List Stmt) : State × Option Ending :=
  match args with
  | [] => s.finish (if function = "exit" then .halted else .stuck)
  | [arg] =>
    match value? s.store arg with
    | none => s.finish .stuck
    | some w =>
      if function = "print" then
        { s with
          output := s.output ++ toString (Machine.signed w) }.proceed
          rest
      else if function = "int" then
        s.proceed rest
      else
        s.finish .stuck
  | _ => s.finish .stuck

def step (s : State) : State × Option Ending :=
  match s.todo with
  | [] => s.finish .halted
  | stmt :: rest =>
    match stmt with
    | .pass _ => s.proceed rest
    | .assign _ (.name id) [] value => s.assign id value rest
    | .expr _ (.call function args) => s.call function args rest
    | .cond _ test body orElse =>
      match holds? s.store test with
      | some true => s.proceed (body ++ rest)
      | some false => s.proceed (orElse ++ rest)
      | none => s.finish .stuck
    | .loop line test body =>
      match holds? s.store test with
      | some true => s.proceed (body ++ .loop line test body :: rest)
      | some false => s.proceed rest
      | none => s.finish .stuck
    | _ => s.finish .stuck

/- Executes statements to the end, or some number of them. -/
def run : Nat → State → State × Option Ending
  | 0, s => (s, none)
  | n + 1, s =>
    match s.step with
    | (next, none) => run n next
    | (last, some ending) => (last, some ending)

/- An execution ends in some way after printing some text. -/
def Ends (s : State) (ending : Ending) (output : String) : Prop :=
  ∃ n last, s.run n = (last, some ending) ∧ last.output = output

/- An execution has no end. -/
def RunsForever (s : State) : Prop := ∀ n, (s.run n).2 = none

end State

end Script

end Pep9
