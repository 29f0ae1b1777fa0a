import Pep9.Compile.Storage

/-
  Functions: their parameters, their local variables and
  whether they return a value.

  Key definitions: `Local`, `Signature`, `analyzeFunction`.
-/

namespace Pep9

open Script (Stmt Expr)

namespace Compile

structure Local where
  name : String
  size : Int64
deriving DecidableEq

/-
  A function. Locals stand in the order of their first
  assignments; `slicing` holds the names that index targets.
-/
structure Signature where
  name : String
  params : List String
  hasReturn : Bool
  locals : List Local
  slicing : List String
deriving DecidableEq

namespace Signature

/- A function of which only the head is known. -/
def ofHead (name : String) (params : List String) : Signature where
  name := name
  params := params
  hasReturn := false
  locals := []
  slicing := []

def localsSize (sig : Signature) : Int64 :=
  sig.locals.foldl (fun total l => total + l.size) 0

/-
  The number of bytes that a caller sets aside: a word for
  each argument, and one for the value returned.
-/
def argBytes (sig : Signature) : Int64 :=
  Int64.ofNat
    (2 * (sig.params.length + (if sig.hasReturn then 1 else 0)))

def has (sig : Signature) (name : String) : Bool :=
  sig.params.contains name || sig.locals.any fun l => l.name = name

def localSize (usual : Int64) (name : String)
    (value : Expr) : Except Error Int64 :=
  if isArrayName name then
    arrayBytes usual value
  else
    .ok 2

/- Adds what a statement of the body tells. -/
def add (usual : Int64) (sig : Signature) : Stmt → Except Error Signature
  | .assign _ first others value => do
      checkTargets others
      match first with
      | .element base position =>
          return { sig with slicing := ← addIndex sig.slicing base position }
      | .name id =>
          if sig.has id || isConstantName id then
            return sig
          else
            let size ← localSize usual id value
            return { sig with locals := sig.locals ++ [⟨id, size⟩] }
  | .ret _ (some _) => .ok { sig with hasReturn := true }
  | .define _ name _ _ => .error (.unsupported (.nestedFunction name))
  | _ => .ok sig

end Signature

def analyzeFunction (usual : Int64) (name : String) (params : List String)
    (body : List Stmt) : Except Error Signature :=
  (flatten 0 body).foldlM
    (fun sig s => located s.line (sig.add usual s.stmt))
    (.ofHead name params)

end Compile

end Pep9
