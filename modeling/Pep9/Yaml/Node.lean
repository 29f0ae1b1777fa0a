import Pep9.Yaml.Event

/-
  The first document of a text as a tree.

  Key definitions: `Node`, `Frame`, `readDocument`.
-/

namespace Pep9

namespace Yaml

/-
  A part of a document with the line on which it starts,
  counted from one.
-/
inductive Node where
  | scalar (line : Nat) (plain : Bool) (text : String)
  | sequence (line : Nat) (items : List Node)
  | mapping (line : Nat) (entries : List (Node × Node))

def Node.line : Node → Nat
  | scalar line _ _ => line
  | sequence line _ => line
  | mapping line _ => line

/-
  A collection that is being read, the last part first. In a
  mapping there may be a key that waits for its value.
-/
inductive Frame where
  | sequence (line : Nat) (items : List Node)
  | mapping (line : Nat) (entries : List (Node × Node)) (key : Option Node)

namespace Frame

def add (f : Frame) (node : Node) : Frame :=
  match f with
  | sequence line items => sequence line (node :: items)
  | mapping line entries none => mapping line entries (some node)
  | mapping line entries (some key) => mapping line ((key, node) :: entries) none

def close : Frame → Node
  | sequence line items => .sequence line items.reverse
  | mapping line entries _ => .mapping line entries.reverse

end Frame

/-
  What is read of a document: the collections in the making,
  the innermost first, or its root.
-/
inductive Progress where
  | within (frames : List Frame)
  | complete (root : Node)

def placeNode (node : Node) : List Frame → Progress
  | [] => .complete node
  | frame :: rest => .within (frame.add node :: rest)

def placeEvent (frames : List Frame) : Event → Progress
  | .scalar line plain text => placeNode (.scalar line plain text) frames
  | .sequenceStart line => .within (.sequence line [] :: frames)
  | .mappingStart line => .within (.mapping line [] none :: frames)
  | .collectionEnd =>
      match frames with
      | [] => .within []
      | frame :: rest => placeNode frame.close rest
  | _ => .within frames

/-
  Reads the parts of a document up to its root. A token gives
  a few parts at most, and a character a few tokens, so that
  `fuel` is not used up.
-/
def readRoot : Nat → List Frame → Walk Node
  | 0, _ => throw (.unplaced .missingContent)
  | fuel + 1, frames => do
      match placeEvent frames (← Walk.next) with
      | .complete root => return root
      | .within frames' => readRoot fuel frames'

/-
  Reads the first document. There is none when the text has no
  document. The part behind the root is looked at, since it
  may be an error.
-/
def readFirst (size : Nat) : Walk (Option Node) := do
  Walk.start
  match ← Walk.next with
  | .streamEnd => return none
  | _ =>
      let root ← readRoot (16 * size + 64) []
      let _ ← Walk.next
      return some root

def readDocument (text : String) : Except Error (Option Node) :=
  let source := Source.ofList text.toList
  let walker : Walker :=
    { tokens := .start source
      expected := .document
      later := []
      starts := [] }
  match readFirst source.size walker with
  | .ok document _ => .ok document
  | .error e _ => .error e

end Yaml

end Pep9
