import Pep9.Compile.Statement
import Pep9.Script.Parser

/-
  Compilation of whole scripts.

  Key definitions: `Options`, `generate`, `Failure`,
  `compile`.
-/

namespace Pep9

open Listing (Declaration Program)
open Script (Stmt)

namespace Compile

/-
  Options of compilation: the bytes of an array whose length
  is not known, and the name of the script in the listing.
-/
structure Options where
  arrayBytes : Int64
  source : String

def usualArrayBytes : Int64 :=
  200

/- The bytes of such an array; not positive means the usual. -/
def Options.usual (options : Options) : Int64 :=
  if options.arrayBytes ≤ 0 then
    usualArrayBytes
  else
    options.arrayBytes

structure Compiled where
  program : Program
  table : SymbolTable

/- Whether a script ends with a call of `exit`. -/
def endsWithExit (stmts : List Stmt) : Bool :=
  match stmts.getLast? with
  | some (.expr _ (.call function _)) => function = "exit"
  | _ => false

def Storage.isArray : Storage → Bool
  | array _ => true
  | _ => false

def Globals.arrayTargets (g : Globals) (table : SymbolTable) : List String :=
  (g.vars.filter fun v => v.storage.isArray).map
    fun v => ((table.lookup? v.name).map Binding.target).getD ""

def Generator.start (usual : Int64) (globals : Globals)
    (table : SymbolTable) : Generator where
  usual := usual
  table := table
  slicing := globals.slicing
  inside := none
  functions := []
  frames := []
  arrays := globals.arrayTargets table
  loops := 0
  conds := 0
  landings := 1

/-
  Compiles the statements of a script whose variables are
  declared.
-/
def generateFrom (options : Options) (globals : Globals) (bound : SymbolTable)
    (data : List Declaration) (stmts : List Stmt) : Except Error Compiled := do
  let g := Generator.start options.usual globals bound
  let (entry, g₁) ← g.label landingStem g.landings
  let (code, g₂) ← blockCode g₁ stmts
  let ending := if endsWithExit stmts then [] else [.plain .stop]
  let program : Program :=
    { source := options.source
      entry := entry
      data := data
      frames := g₂.frames
      code := mark entry :: code ++ ending }
  return ⟨program, g₂.table⟩

def generate (options : Options) (table : SymbolTable)
    (stmts : List Stmt) : Except Error Compiled := do
  let globals ← analyzeGlobals options.usual stmts
  let (bound, result) := allocateGlobals table globals.vars
  let data ← result
  generateFrom options globals bound data stmts

inductive Failure where
  | source (error : Script.SourceError)
  | script (error : Error)

def Failure.message : Failure → String
  | source error => error.message
  | script error => error.message

def compile (options : Options) (source : String) : Except Failure Compiled :=
  match Script.parseSource source with
  | .error e => .error (.source e)
  | .ok stmts => (generate options .empty stmts).mapError .script

end Compile

end Pep9
