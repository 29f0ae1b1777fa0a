import Pep9.Compile.Signature
import Pep9.Compile.SymbolTable
import Pep9.Listing.Program

/-
  Places for variables: declarations of globals, and offsets
  from the stack pointer for what belongs to a function.

  Key definitions: `allocateGlobals`, `Slot`, `frameSlots`,
  `allocateFrame`.
-/

namespace Pep9

open Listing (Declaration)

namespace Compile

def Storage.declaration (target : String) : Storage → Declaration
  | uninitialized => ⟨target, .block, 2⟩
  | constant v => ⟨target, .equate, v⟩
  | value v => ⟨target, .word, v⟩
  | array bytes => ⟨target, .block, bytes⟩

def Storage.mark (table : SymbolTable) (target : String) : Storage → SymbolTable
  | uninitialized => table
  | _ => table.markSpecial target

/-
  Binds and declares global variables. The table is that
  after the last variable that could be bound.
-/
def allocateGlobals (table : SymbolTable) :
    List Global → SymbolTable × Except Error (List Declaration)
  | [] => (table, .ok [])
  | v :: rest =>
      match table.bindGlobal .data v.name with
      | .error e => (table, .error e)
      | .ok (target, bound) =>
          let result := allocateGlobals (v.storage.mark bound target) rest
          (result.1, result.2.map (v.storage.declaration target :: ·))

/-
  A place on the stack: the source that it is bound to, the
  name of which its target is made, its offset, and whether
  its first assignment does nothing.
-/
structure Slot where
  source : String
  name : String
  offset : Int64
  special : Bool
deriving DecidableEq

/- The name to which the place of the returned value is bound. -/
def returnSource : String :=
  "return"

/- The name of which its target is made. -/
def returnName : String :=
  "retVal"

/- The places of locals from an offset on, and the offset behind. -/
def localSlots (offset : Int64) : List Local → List Slot × Int64
  | [] => ([], offset)
  | l :: rest =>
      let (slots, behind) := localSlots (offset + l.size) rest
      (⟨l.name, l.name, offset, isArrayName l.name⟩ :: slots, behind)

/- Those of parameters. -/
def paramSlots (offset : Int64) : List String → List Slot × Int64
  | [] => ([], offset)
  | p :: rest =>
      let (slots, behind) := paramSlots (offset + 2) rest
      (⟨p, p, offset, false⟩ :: slots, behind)

/-
  The places of a function: its locals, the return address,
  its parameters, and the value that it returns.
-/
def frameSlots (sig : Signature) : List Slot :=
  let (locals, address) := localSlots 0 sig.locals
  let (params, behind) := paramSlots (address + 2) sig.params
  locals ++ params
    ++ (if sig.hasReturn then
          [⟨returnSource, returnName, behind, false⟩]
        else
          [])

/- The outcome of an allocation that may stop half way. -/
structure FrameAllocation where
  table : SymbolTable
  decls : List Declaration
  error : Option Error

/- Binds places of a function up to the first that cannot be. -/
def bindSlots (owner : String)
    (table : SymbolTable) : List Slot → FrameAllocation
  | [] => ⟨table, [], none⟩
  | slot :: rest =>
      match table.bindLocalAs slot.source slot.name owner with
      | .error e => ⟨table, [], some e⟩
      | .ok (target, bound) =>
          let marked := if slot.special then bound.markSpecial target else bound
          let result := bindSlots owner marked rest
          { result with
            decls := ⟨target, .equate, slot.offset⟩ :: result.decls }

def allocateFrame (table : SymbolTable) (sig : Signature) : FrameAllocation :=
  bindSlots sig.name table (frameSlots sig)

end Compile

end Pep9
