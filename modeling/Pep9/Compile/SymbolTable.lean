import Pep9.Compile.Error
import Pep9.Compile.Name
import Pep9.Text.Column

/-
  Symbol tables. A table binds the names of a script to short
  target names, no two of which are the same. Names of data
  and of functions are bound apart, so that one name can have
  two bindings, but their targets differ.

  Key definitions: `Binding`, `SymbolTable`,
  `SymbolTable.bindGlobal`, `SymbolTable.bindLocal`,
  `SymbolTable.generate`, `SymbolTable.child`,
  `SymbolTable.merge`, `SymbolTable.describe`.
-/

namespace Pep9

namespace Compile

/- Where a name is bound: everywhere, or in a function. -/
inductive Scope where
  | global
  | local (owner : String)
deriving DecidableEq, Repr

structure Binding where
  source : String
  target : String
  kind : SymbolKind
  scope : Scope
deriving DecidableEq, Repr

/- Bindings in which a source occurs at most once. -/
abbrev Bindings :=
  List Binding

namespace Bindings

def find (bindings : Bindings) (source : String) : Option Binding :=
  bindings.find? fun b => b.source = source

/- Adds a binding in place of one with the same source. -/
def set (new : Binding) : Bindings → Bindings
  | [] => [new]
  | b :: rest =>
      if b.source = new.source then
        new :: rest
      else
        b :: set new rest

def sorted (bindings : Bindings) : List Binding :=
  bindings.mergeSort fun a b => a.source ≤ b.source

end Bindings

/-
  A symbol table. `takenData` and `takenLabels` hold the
  targets in use, with those that other tables reserved.
  `special` holds the targets whose first value stands in
  their declaration.
-/
structure SymbolTable where
  data : Bindings
  labels : Bindings
  takenData : List String
  takenLabels : List String
  special : List String
deriving DecidableEq, Repr

namespace SymbolTable

def empty : SymbolTable where
  data := []
  labels := []
  takenData := []
  takenLabels := []
  special := []

def bindings (t : SymbolTable) : SymbolKind → Bindings
  | .data => t.data
  | .label => t.labels

def inUse (t : SymbolTable) (target : String) : Bool :=
  t.takenData.contains target || t.takenLabels.contains target

def reserve (t : SymbolTable) (kind : SymbolKind)
    (target : String) : SymbolTable :=
  match kind with
  | .data => { t with takenData := t.takenData.insert target }
  | .label => { t with takenLabels := t.takenLabels.insert target }

/- Adds a binding and takes its target. -/
def bind (t : SymbolTable) (b : Binding) : SymbolTable :=
  match b.kind with
  | .data => { t with data := t.data.set b }.reserve .data b.target
  | .label => { t with labels := t.labels.set b }.reserve .label b.target

def longestTarget : Nat :=
  8

def localPart : Nat :=
  5

/- The lower-case letter `n` places after a character. -/
def letterAfter (c : Char) (n : Nat) : Char :=
  Char.ofNat (97 + (((c.toNat : Int) - 97 + n) % 26).toNat)

/-
  A text with one of its characters changed: for each of the
  positions in turn, all letters from the next one on.
-/
def variants (window : String) (positions : List Nat) : List String :=
  positions.flatMap fun p =>
    (List.range 26).map fun i =>
      String.ofList
        (window.toList.modify p fun c => letterAfter c (i + 1))

/- A free target: the window itself or the first free variant. -/
def freeTarget (t : SymbolTable) (kind : SymbolKind) (window : String)
    (positions : List Nat) : Except Error String :=
  if t.inUse window then
    match (variants window positions).find? fun s => !t.inUse s with
    | some target => .ok target
    | none => .error (.of (.namesExhausted kind window))
  else
    .ok window

/-
  The positions of a window that may change. The first `skip`
  characters stay. An array keeps its last character and
  changes from the front, all others from the back.
-/
def positions (length : Nat) (array : Bool) (skip : Nat) : List Nat :=
  if array then
    (List.range (length - 1)).drop skip
  else
    ((List.range length).drop skip).reverse

/- The part of a name that is kept: its end for an array. -/
def window (limit : Nat) (array : Bool) (name : String) : String :=
  if array then
    String.ofList (name.toList.drop (name.length - limit))
  else
    String.ofList (name.toList.take limit)

/- Binds a free target, and returns it. -/
def bindFree (t : SymbolTable) (window : String) (positions : List Nat)
    (binding : String → Binding) : Except Error (String × SymbolTable) :=
  match t.freeTarget (binding window).kind window positions with
  | .error e => .error e
  | .ok target => .ok (target, t.bind (binding target))

/-
  Binds a name everywhere, unless it is bound so already,
  and returns its target.
-/
def bindGlobal (t : SymbolTable) (kind : SymbolKind)
    (name : String) : Except Error (String × SymbolTable) :=
  match (t.bindings kind).find name with
  | some ⟨_, target, _, .global⟩ => .ok (target, t)
  | _ =>
      let array := kind = .data && isArrayName name
      let kept := window longestTarget array name
      t.bindFree kept (positions kept.length array 0) fun target =>
        ⟨name, target, kind, .global⟩

/- What the targets of a function's locals start with. -/
def localStart (owner : String) : String :=
  String.ofList (owner.toList.take 2) ++ "_"

/-
  Binds a source in a function, unless it is bound so
  already. The target is made from `name`.
-/
def bindLocalAs (t : SymbolTable) (source : String) (name : String)
    (owner : String) : Except Error (String × SymbolTable) :=
  let fresh :=
    let start := localStart owner
    let array := isArrayName name
    let kept := start ++ window localPart array name
    t.bindFree kept (positions kept.length array start.length) fun target =>
      ⟨source, target, .data, .local owner⟩
  match t.data.find source with
  | some b =>
      if b.scope = .local owner then
        .ok (b.target, t)
      else
        fresh
  | none => fresh

def bindLocal (t : SymbolTable) (name : String)
    (owner : String) : Except Error (String × SymbolTable) :=
  t.bindLocalAs name name owner

/- The positions of a stem that may change, from the back. -/
def stemPositions (stem : String) : List Nat :=
  ((stem.toList.zipIdx.filter fun (c, _) => c ≠ '_').map Prod.snd).reverse

/-
  Takes a label that stands for no name: a stem and a
  number. The stem changes when the label is in use.
-/
def generate (t : SymbolTable) (stem : String)
    (id : Int) : Except Error (String × SymbolTable) :=
  let candidate := stem ++ toString id
  if candidate.length > longestTarget then
    .error (.unsupported (.longLabel candidate longestTarget))
  else
    match t.freeTarget .label candidate (stemPositions stem) with
    | .error e => .error e
    | .ok target => .ok (target, t.reserve .label target)

------------------------------------------------------------
-- Reading a Table
------------------------------------------------------------

def lookup? (t : SymbolTable) (name : String) : Option Binding :=
  t.data.find name

def dataTarget (t : SymbolTable) (name : String) : Except Error String :=
  match t.data.find name with
  | some b => .ok b.target
  | none => .error (.of (.undefinedName name))

def labelTarget (t : SymbolTable) (name : String) : Except Error String :=
  match t.labels.find name with
  | some b => .ok b.target
  | none => .error (.of (.undefinedFunction name))

/- Marks a target as having its first value declared. -/
def markSpecial (t : SymbolTable) (target : String) : SymbolTable :=
  { t with special := t.special.insert target }

def unmarkSpecial (t : SymbolTable) (target : String) : SymbolTable :=
  { t with special := t.special.filter (· ≠ target) }

def isSpecial (t : SymbolTable) (target : String) : Bool :=
  t.special.contains target

/- The data bindings that functions see, in order. -/
def constants (t : SymbolTable) : List Binding :=
  Bindings.sorted
    (t.data.filter fun b => isConstantName b.source || isArrayName b.source)

/- The functions and their labels, in order. -/
def labelPairs (t : SymbolTable) : List (String × String) :=
  t.labels.sorted.map fun b => (b.source, b.target)

def addAll (t : SymbolTable) (bindings : List Binding) : SymbolTable :=
  bindings.foldl bind t

/- Replaces all bindings of functions. -/
def setLabels (t : SymbolTable)
    (labels : List (String × String)) : SymbolTable :=
  { t with labels := [] }.addAll
    (labels.map fun (source, target) => ⟨source, target, .label, .global⟩)

/-
  The table with which a function starts: it sees constants,
  global arrays and functions, and all targets are taken.
-/
def child (t : SymbolTable) : SymbolTable :=
  ({ empty with
      takenData := t.takenData
      takenLabels := t.takenLabels }.addAll t.constants).setLabels
    t.labelPairs

/- Takes all targets that are bound in the table of a function. -/
def merge (t : SymbolTable) (other : SymbolTable) : SymbolTable :=
  let withData :=
    other.data.foldl (fun acc b => acc.reserve .data b.target) t
  other.labels.foldl (fun acc b => acc.reserve .label b.target) withData

def scopeText : Scope → String
  | .global => "global"
  | .local owner => "local " ++ owner

def bindingLine (t : SymbolTable) (b : Binding) : String :=
  "  " ++ Text.padRight 20 b.source
    ++ "  -> " ++ Text.padRight 8 b.target
    ++ " (" ++ scopeText b.scope
    ++ (if t.isSpecial b.target then " special" else "") ++ ")\n"

def kindLines (t : SymbolTable) (kind : SymbolKind) : String :=
  if (t.bindings kind).isEmpty then
    kind.text ++ ": (empty)\n"
  else
    kind.text ++ ":\n"
      ++ String.join ((t.bindings kind).sorted.map t.bindingLine)

def describe (t : SymbolTable) : String :=
  t.kindLines .data ++ t.kindLines .label

end SymbolTable

end Compile

end Pep9
