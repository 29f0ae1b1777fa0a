import Pep9.Compile.Error
import Pep9.Compile.Located
import Pep9.Compile.Name

/-
  The storage of global variables, as their first assignments
  decide it.

  Key definitions: `Storage`, `Global`, `Globals`,
  `storageOf`, `analyzeGlobals`.
-/

namespace Pep9

open Script (Stmt Expr Place)

namespace Compile

/- Literals fit a word, with or without a sign. -/
def fitsWord (value : Int64) : Bool :=
  -32768 ≤ value && value ≤ 65535

def checkWord (value : Int64) : Except Error Unit :=
  if fitsWord value then
    .ok ()
  else
    .error (.unsupported (.wideLiteral value))

def bytesOfLength (length : Int64) : Except Error Int64 :=
  if length ≤ 0 ∨ length * 2 > 65535 then
    .error (.unsupported (.arrayLength length))
  else
    .ok (length * 2)

/-
  The number of bytes of an array with some first value: two
  for each element of a list, repeated or not, and the usual
  number for all else.
-/
def arrayBytes (usual : Int64) : Expr → Except Error Int64
  | .arith .mul (.list _) (.literal length) => bytesOfLength length
  | .list elements => bytesOfLength (Int64.ofNat elements.length)
  | _ => .ok usual

/- The variable by which a subscript as a target is indexed. -/
def indexName? (base : Expr) (position : Expr) : Except Error (Option String) :=
  match base with
  | .name _ =>
      match position with
      | .name id => .ok (if id = "" then none else some id)
      | .literal value => do
          checkWord (value * 2)
          return none
      | _ => .error (.unsupported (.subscriptIndex position.describe))
  | _ => .error (.unsupported (.subscriptOf base.describe))

def addIndex (slicing : List String) (base : Expr)
    (position : Expr) : Except Error (List String) := do
  match ← indexName? base position with
  | some id => return slicing.insert id
  | none => return slicing

def checkTargets (others : List Place) : Except Error Unit :=
  if others.isEmpty then
    .ok ()
  else
    .error (.unsupported (.targetCount (others.length + 1)))

/-
  The storage of a variable. The numbers of constants and
  values are those of the first assignment, those of arrays
  count bytes.
-/
inductive Storage where
  | uninitialized
  | constant (value : Int64)
  | value (value : Int64)
  | array (bytes : Int64)
deriving DecidableEq

def Storage.text : Storage → String
  | uninitialized => "uninitialized"
  | constant v => "const(" ++ toString v ++ ")"
  | value v => "value(" ++ toString v ++ ")"
  | array bytes => "array(" ++ toString bytes ++ " bytes)"

structure Global where
  name : String
  storage : Storage
deriving DecidableEq

/-
  The global variables of a script in the order of their
  first assignments, and the names that index targets.
-/
structure Globals where
  vars : List Global
  slicing : List String
deriving DecidableEq

def storageOf (usual : Int64) (name : String)
    (value : Expr) : Except Error Storage :=
  match value with
  | .literal v => do
      checkWord v
      return if isConstantName name then .constant v else .value v
  | _ =>
      if isConstantName name then
        .error (.unsupported (.constantValue name))
      else if isArrayName name then do
        return .array (← arrayBytes usual value)
      else
        .ok .uninitialized

namespace Globals

def empty : Globals where
  vars := []
  slicing := []

def has (g : Globals) (name : String) : Bool :=
  g.vars.any fun v => v.name = name

/- Adds what a statement tells. -/
def add (usual : Int64) (g : Globals) : Stmt → Except Error Globals
  | .assign _ first others value => do
      checkTargets others
      match first with
      | .element base position =>
          return { g with slicing := ← addIndex g.slicing base position }
      | .name id =>
          if g.has id then
            return g
          else
            let storage ← storageOf usual id value
            return { g with vars := g.vars ++ [⟨id, storage⟩] }
  | _ => .ok g

end Globals

/-
  The global variables of a script. `usual` is the number of
  bytes of an array whose length is not known.
-/
def analyzeGlobals (usual : Int64) (stmts : List Stmt) : Except Error Globals :=
  (flatten 0 stmts).foldlM
    (fun g s => located s.line (g.add usual s.stmt)) .empty

end Compile

end Pep9
