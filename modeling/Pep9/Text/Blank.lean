import Pep9.Text.Ranges

/-
  White space of Unicode, and how a text is trimmed and
  cut at it.

  Key definitions: `isBlank`, `trim`, `fields`, `lines`.
-/

namespace Pep9

namespace Text

/- The property White_Space of Unicode. -/
def blankRanges : List Nat :=
  [0x09, 0x0e, 0x20, 0x21, 0x85, 0x86, 0xa0, 0xa1, 0x1680, 0x1681,
    0x2000, 0x200b, 0x2028, 0x202a, 0x202f, 0x2030, 0x205f, 0x2060,
    0x3000, 0x3001]

def isBlank (c : Char) : Bool :=
  inRanges blankRanges c.toNat

/- The text without the white space at both of its ends. -/
def trim (s : String) : String :=
  String.ofList
    ((s.toList.dropWhile isBlank).reverse.dropWhile isBlank).reverse

/- A run of characters read backwards, unless it is empty. -/
def fieldOf (backwards : List Char) : List String :=
  if backwards.isEmpty then
    []
  else
    [String.ofList backwards.reverse]

/-
  The fields of the remaining characters, where `backwards`
  holds the field under way.
-/
def fieldsFrom (backwards : List Char) : List Char → List String
  | [] => fieldOf backwards
  | c :: rest =>
      if isBlank c then
        fieldOf backwards ++ fieldsFrom [] rest
      else
        fieldsFrom (c :: backwards) rest

/- The longest runs of characters that are not white space. -/
def fields (s : String) : List String :=
  fieldsFrom [] s.toList

/-
  The lines of the remaining characters, where `backwards`
  holds the line under way.
-/
def linesFrom (backwards : List Char) : List Char → List String
  | [] => [String.ofList backwards.reverse]
  | c :: rest =>
      if c = '\n' then
        String.ofList backwards.reverse :: linesFrom [] rest
      else
        linesFrom (c :: backwards) rest

/-
  The pieces between line feeds. There is one more piece
  than there are line feeds.
-/
def lines (s : String) : List String :=
  linesFrom [] s.toList

end Text

end Pep9
