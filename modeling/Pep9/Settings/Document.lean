import Pep9.Settings.Basic
import Pep9.Text.Quoted
import Pep9.Yaml.Node
import Pep9.Yaml.Resolved

/-
  Settings written as a document. All that does not fit is
  collected; settings that a document leaves out, or sets to
  null, stay as they are.

  Key definitions: `Mismatch`, `Decoder`, `Record`,
  `rootRecord`, `Failure`, `parse`.
-/

namespace Pep9

open Yaml (Node Resolved)

namespace Settings

/- A part of a document that does not fit. -/
inductive Mismatch where
  | repeatedKey (line : Nat) (key : String) (first : Nat)
  | unknownField (line : Nat) (field : String) (type : String)
  | collection (line : Nat) (tag : String) (type : String)
  | scalar (line : Nat) (tag : String) (text : String) (type : String)
deriving DecidableEq, Repr

/-
  The first bytes of a text. What is left of a character that
  is cut shows as replacement characters.
-/
def firstBytes (n : Nat) : List Char → String
  | [] => ""
  | c :: rest =>
      if c.utf8Size ≤ n then
        c.toString ++ firstBytes (n - c.utf8Size) rest
      else
        String.ofList (List.replicate n '\ufffd')

/- A text in a message, cut when it is long. -/
def shown (text : String) : String :=
  if text.utf8ByteSize > 10 then
    firstBytes 7 text.toList ++ "..."
  else
    text

def Mismatch.message : Mismatch → String
  | repeatedKey line key first =>
      "line " ++ toString line ++ ": mapping key " ++ Text.quoted key
        ++ " already defined at line " ++ toString first
  | unknownField line field type =>
      "line " ++ toString line ++ ": field " ++ field
        ++ " not found in type " ++ type
  | collection line tag type =>
      "line " ++ toString line ++ ": cannot unmarshal " ++ tag
        ++ " into " ++ type
  | scalar line tag text type =>
      "line " ++ toString line ++ ": cannot unmarshal " ++ tag
        ++ " `" ++ shown text ++ "` into " ++ type

/- What a scalar stands for. Quoted text is always text. -/
def meaning (plain : Bool) (text : String) : Resolved :=
  if plain then Yaml.resolve text else .string

def scalarTag (plain : Bool) (text : String) : String :=
  if plain && text = "<<" then "!!merge" else (meaning plain text).tag

def mismatch (type : String) : Node → Mismatch
  | .scalar line plain text => .scalar line (scalarTag plain text) text type
  | .sequence line _ => .collection line "!!seq" type
  | .mapping line _ => .collection line "!!map" type

def leastInt : Int :=
  -0x8000000000000000

def boundInt : Int :=
  0x8000000000000000

/-
  The integer that a number stands for. Fractions are cut;
  a fraction out of range becomes the least integer, unless
  it is too large.
-/
def integer? : Resolved → Option Int
  | .int value => if value < boundInt then some value else none
  | .float (.finite whole) =>
      if whole > boundInt then
        none
      else if whole < leastInt ∨ whole = boundInt then
        some leastInt
      else
        some whole
  | .float (.infinite true) => some leastInt
  | _ => none

/- The truth value that a word stands for. -/
def truth? (plain : Bool) (text : String) : Option Bool :=
  match meaning plain text with
  | .bool value => some value
  | .string =>
      if ["y", "Y", "yes", "Yes", "YES", "on", "On", "ON"].contains text then
        some true
      else if
          ["n", "N", "no", "No", "NO", "off", "Off", "OFF"].contains text then
        some false
      else
        none
  | _ => none

/- Whether two keys are the same, as far as can be told. -/
def sameKey : Node → Node → Bool
  | .scalar _ _ a, .scalar _ _ b => a = b
  | .sequence _ _, .sequence _ _ => true
  | .mapping _ _, .mapping _ _ => true
  | _, _ => false

/- The text of a key; that of a collection is empty. -/
def keyText : Node → String
  | .scalar _ _ text => text
  | _ => ""

/- The keys that repeat another one, for each pair of them. -/
def repeatedKeys : List (Node × Node) → List Mismatch
  | [] => []
  | (key, _) :: rest =>
      ((rest.filter fun e => sameKey key e.1).map fun e =>
          .repeatedKey e.1.line (keyText e.1) key.line)
        ++ repeatedKeys rest

/- Whether a key asks to merge another mapping. -/
def isMerge : Node → Bool
  | .scalar _ plain text => plain && text = "<<"
  | _ => false

/- The field that a key names, none for null, or a mismatch. -/
def fieldName? : Node → Except (List Mismatch) (Option String)
  | .scalar _ plain text =>
      .ok (if meaning plain text = .null then none else some text)
  | .sequence line items =>
      .error [mismatch "string" (.sequence line items)]
  | .mapping line entries =>
      let repeated := repeatedKeys entries
      if repeated.isEmpty then
        .error [mismatch "string" (.mapping line entries)]
      else
        .error repeated

def textKeys (entries : List (Node × Node)) : List String :=
  entries.filterMap fun (key, _) =>
    match key with
    | .scalar _ plain text =>
        if meaning plain text = .string then some text else none
    | _ => none

structure Decoded where
  settings : Settings
  mismatches : List Mismatch

namespace Decoded

def add (d : Decoded) (found : List Mismatch) : Decoded :=
  { d with mismatches := d.mismatches ++ found }

def put (d : Decoded) (settings : Settings) : Decoded :=
  { d with settings := settings }

end Decoded

abbrev Decoder :=
  Node → Decoded → Except Yaml.Error Decoded

/- A decoder of scalars, where null changes nothing. -/
def scalarDecoder (type : String)
    (read : Bool → String → Option (Settings → Settings)) : Decoder :=
  fun node d =>
    match node with
    | .scalar _ plain text =>
        if meaning plain text = .null then
          .ok d
        else
          match read plain text with
          | some change => .ok (d.put (change d.settings))
          | none => .ok (d.add [mismatch type node])
    | .mapping _ entries =>
        let repeated := repeatedKeys entries
        if repeated.isEmpty then
          .ok (d.add [mismatch type node])
        else
          .ok (d.add repeated)
    | _ => .ok (d.add [mismatch type node])

def integerDecoder (change : Int → Settings → Settings) : Decoder :=
  scalarDecoder "int" fun plain text =>
    (integer? (meaning plain text)).map change

def truthDecoder (change : Bool → Settings → Settings) : Decoder :=
  scalarDecoder "bool" fun plain text => (truth? plain text).map change

/- A type of the document with the decoders of its fields. -/
structure Record where
  type : String
  fields : List (String × Decoder)

/-
  Decoded settings with the names that a merge must not set
  again, if there is one.
-/
structure Merging where
  decoded : Decoded
  taken : Option (List String)

/- Reads an entry of a mapping; merges are left for later. -/
def Record.entry (r : Record) (m : Merging)
    (entry : Node × Node) : Except Yaml.Error Merging :=
  if isMerge entry.1 then
    .ok m
  else
    match fieldName? entry.1 with
    | .error found => .ok { m with decoded := m.decoded.add found }
    | .ok none => .ok m
    | .ok (some name) =>
        if m.taken.any fun names => names.contains name then
          .ok m
        else do
          let taken := m.taken.map (name :: ·)
          match r.fields.lookup name with
          | some decoder =>
              return ⟨← decoder entry.2 m.decoded, taken⟩
          | none =>
              let unknown := .unknownField entry.1.line name r.type
              return ⟨m.decoded.add [unknown], taken⟩

/-
  Reads the entries of a mapping, and then of the mapping that
  it merges. Such mappings are nested at most `depth` deep.
-/
def Record.entries (r : Record) (depth : Nat) (m : Merging)
    (entries : List (Node × Node)) : Except Yaml.Error Merging :=
  match depth with
  | 0 => .ok m
  | depth + 1 => do
      let repeated := repeatedKeys entries
      if repeated.isEmpty then
        let m' ← entries.foldlM r.entry m
        match entries.find? fun e => isMerge e.1 with
        | none => return m'
        | some (_, merged) =>
            let taken := m'.taken.getD (textKeys entries)
            let start : Merging := ⟨m'.decoded, some taken⟩
            let result ←
              match merged with
              | .mapping _ inner => r.entries depth start inner
              | .sequence _ items =>
                  items.foldlM
                    (fun acc item =>
                      match item with
                      | .mapping _ inner => r.entries depth acc inner
                      | _ => throw (.unplaced .mergeOfNoMapping))
                    start
              | .scalar _ _ _ => throw (.unplaced .mergeOfNoMapping)
            return { result with
              taken := if m.taken.isNone then none else result.taken }
      else
        return { m with decoded := m.decoded.add repeated }

/- How deep mappings that are merged may be nested. -/
def mergeDepth : Nat :=
  1000

def Record.decoder (r : Record) : Decoder :=
  fun node d =>
    match node with
    | .mapping _ entries => do
        return (← r.entries mergeDepth ⟨d, none⟩ entries).decoded
    | .scalar _ plain text =>
        if meaning plain text = .null then
          .ok d
        else
          .ok (d.add [mismatch r.type node])
    | .sequence _ _ => .ok (d.add [mismatch r.type node])

------------------------------------------------------------
-- Settings
------------------------------------------------------------

def arraysRecord : Record where
  type := "config.Arrays"
  fields :=
    [("default_bytes",
      integerDecoder fun value s => { s with arrayBytes := value })]

def listingRecord : Record where
  type := "config.Listing"
  fields :=
    [("comments", truthDecoder fun value s => { s with comments := value }),
      ("label_width",
        integerDecoder fun value s => { s with labelWidth := value })]

def runRecord : Record where
  type := "config.Run"
  fields :=
    [("max_steps",
      integerDecoder fun value s => { s with maxSteps := value })]

def rootRecord : Record where
  type := "config.Config"
  fields :=
    [("arrays", arraysRecord.decoder),
      ("listing", listingRecord.decoder),
      ("run", runRecord.decoder),
      ("assemble",
        truthDecoder fun value s => { s with assemble := value })]

inductive Failure where
  | document (error : Yaml.Error)
  | mismatches (found : List Mismatch)
  | invalid (reason : Invalid)

/- The wording of a failure, given where the document is. -/
def Failure.message (path : String) : Failure → String
  | document error => "parsing " ++ path ++ ": " ++ error.message
  | mismatches found =>
      "parsing " ++ path ++ ": yaml: unmarshal errors:\n  "
        ++ "\n  ".intercalate (found.map Mismatch.message)
  | invalid reason => path ++ ": " ++ reason.message

/- Reads a document on top of some settings. -/
def decode (s : Settings) (node : Node) : Except Failure Settings :=
  match rootRecord.decoder node ⟨s, []⟩ with
  | .error e => .error (.document e)
  | .ok d =>
      if d.mismatches.isEmpty then
        .ok d.settings
      else
        .error (.mismatches d.mismatches)

def parse (text : String) : Except Failure Settings := do
  let document ← (Yaml.readDocument text).mapError Failure.document
  let settings ←
    match document with
    | none => pure standard
    | some node => standard.decode node
  settings.check.mapError .invalid

end Settings

end Pep9
