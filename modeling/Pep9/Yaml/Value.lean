import Pep9.Yaml.Style

/-
  Trees of texts, integers, lists and records, and their
  block documents.

  Key definitions: `Value`, `Fields`, `Value.render`.
-/

namespace Pep9

namespace Yaml

mutual

/-
  A tree that can be written as a document. A scalar has the
  tag of a string or of an integer, and its text.
-/
inductive Value where
  | string (text : String)
  | int (text : String)
  | list (items : List Value)
  | record (fields : Fields)

/- The fields of a record in order. Keys are plain words. -/
inductive Fields where
  | nil
  | field (key : String) (value : Value) (rest : Fields)

end

def Fields.ofList : List (String × Value) → Fields
  | [] => .nil
  | (key, value) :: rest => .field key value (ofList rest)

/- Lines are indented by multiples of this width. -/
def indentStep : Nat :=
  4

/- The next multiple of the indentation width. -/
def deeper (indent : Nat) : Nat :=
  indentStep * ((indent + indentStep) / indentStep)

/- Ends the line, unless the text ends with a line break. -/
def endLine (s : String) : String :=
  match s.toList.getLast? with
  | some c => if isBreak c then s else s ++ "\n"
  | none => "\n"

mutual

/- A value behind the key of a field that has an indentation. -/
def Value.writeField (indent : Nat) : Value → String
  | .string text => " " ++ endLine (scalarText (deeper indent) text)
  | .int text => " " ++ text ++ "\n"
  | .list [] => " []\n"
  | .list items =>
      "\n" ++ writeItems (Text.spaces (deeper indent)) (deeper indent) items
  | .record .nil => " \x7b\x7d\n"
  | .record fields =>
      "\n" ++ fields.write (Text.spaces (deeper indent)) (deeper indent)

/- A value behind the dash of an item whose content has an indentation. -/
def Value.writeItem (indent : Nat) : Value → String
  | .string text => endLine (scalarText indent text)
  | .int text => text ++ "\n"
  | .list [] => "[]\n"
  | .list items => writeItems "" indent items
  | .record .nil => "\x7b\x7d\n"
  | .record fields => fields.write "" indent

/- The items of a list; `lead` stands before the first. -/
def writeItems (lead : String) (indent : Nat) : List Value → String
  | [] => ""
  | item :: rest =>
      lead ++ "- " ++ item.writeItem (indent + 2)
        ++ writeItems (Text.spaces indent) indent rest

/- The fields of a record; `lead` stands before the first. -/
def Fields.write (lead : String) (indent : Nat) : Fields → String
  | .nil => ""
  | .field key value rest =>
      lead ++ key ++ ":" ++ value.writeField indent
        ++ rest.write (Text.spaces indent) indent

end

def Value.render (value : Value) : String :=
  value.writeItem 0

end Yaml

end Pep9
