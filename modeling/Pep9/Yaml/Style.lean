import Pep9.Text.Column
import Pep9.Yaml.Character
import Pep9.Yaml.Resolved

/-
  How a text is written as a scalar of a block document.

  Key definitions: `Style`, `styleOf`, `scalarText`.
-/

namespace Pep9

namespace Yaml

inductive Style where
  | plain
  | singleQuoted
  | doubleQuoted
  | literal
deriving DecidableEq, Repr

def someNeighbours (relation : Char → Char → Bool) : List Char → Bool
  | a :: b :: rest => relation a b || someNeighbours relation (b :: rest)
  | _ => false

/- A blank in front of a line break. -/
def hasTrailingSpace (cs : List Char) : Bool :=
  someNeighbours (fun a b => a == ' ' && isBreak b) cs

/- A space behind a line break. -/
def hasLeadingSpace (cs : List Char) : Bool :=
  someNeighbours (fun a b => isBreak a && b == ' ') cs

/- A character that cannot be written as it is, tabs apart. -/
def hasSpecial (cs : List Char) : Bool :=
  cs.any fun c => c != '\t' && !isShown c

/- The end of the text or a blank comes next. -/
def blankNext : List Char → Bool
  | [] => true
  | c :: _ => isBlank c

/- Whether the start of a text could be read as structure. -/
def startsLikeStructure : List Char → Bool
  | [] => false
  | c :: rest =>
      ['-', '-', '-'].isPrefixOf (c :: rest)
        || ['.', '.', '.'].isPrefixOf (c :: rest)
        || "#,[]\x7b\x7d&*!|>'\"%@\x60".toList.contains c
        || ((c == '?' || c == ':' || c == '-') && blankNext rest)

/-
  Whether a text could be read as structure further on: a
  colon before a blank, or a number sign behind one.
-/
def goesOnLikeStructure : List Char → Bool
  | a :: b :: rest =>
      (b == ':' && blankNext rest)
        || (b == '#' && (isBlank a || isBreak a || a == '\x00'))
        || goesOnLikeStructure (b :: rest)
  | _ => false

def plainAllowed (cs : List Char) : Bool :=
  !(startsLikeStructure cs || goesOnLikeStructure cs || hasSpecial cs
    || cs.any isBreak || cs.contains '\t'
    || cs.head? == some ' ' || cs.getLast? == some ' ')

def singleAllowed (cs : List Char) : Bool :=
  !(hasLeadingSpace cs || hasTrailingSpace cs || cs.contains '\t' || hasSpecial cs)

def literalAllowed (cs : List Char) : Bool :=
  !(hasTrailingSpace cs || hasSpecial cs || cs.getLast? == some ' ')

/-
  The style of a text. Texts with line feeds are blocks of
  lines where possible, and a text that would be read as
  something else is put in double quotes.
-/
def styleOf (s : String) : Style :=
  let cs := s.toList
  if cs.contains '\n' then
    if literalAllowed cs then .literal else .doubleQuoted
  else if resolve s ≠ .string then
    .doubleQuoted
  else if plainAllowed cs then
    .plain
  else if singleAllowed cs then
    .singleQuoted
  else
    .doubleQuoted

/-
  Puts an indentation before each character behind a line
  break. `fresh` tells whether a line break came before.
-/
def indented (indent : Nat) (fresh : Bool) : List Char → List Char
  | [] => []
  | c :: rest =>
      if isBreak c then
        c :: indented indent true rest
      else if fresh then
        List.replicate indent ' ' ++ c :: indented indent false rest
      else
        c :: indented indent false rest

/- A text in single quotes, with the quotes in it doubled. -/
def singleQuoted (indent : Nat) (cs : List Char) : String :=
  let doubled := cs.flatMap fun c => if c = '\'' then ['\'', '\''] else [c]
  "'" ++ String.ofList (indented indent false doubled) ++ "'"

/-
  One character of a text in double quotes. All characters
  are escaped when that is wanted.
-/
def doubleQuotedChar (always : Bool) (c : Char) : String :=
  if !always && isShown c && !isBreak c && c != '"' && c != '\\' then
    String.singleton c
  else
    match c.toNat with
    | 0x00 => "\\0"
    | 0x07 => "\\a"
    | 0x08 => "\\b"
    | 0x09 => "\\t"
    | 0x0a => "\\n"
    | 0x0b => "\\v"
    | 0x0c => "\\f"
    | 0x0d => "\\r"
    | 0x1b => "\\e"
    | 0x22 => "\\\""
    | 0x5c => "\\\\"
    | 0x85 => "\\N"
    | 0x2028 => "\\L"
    | 0x2029 => "\\P"
    | n =>
        if n ≤ 0xff then
          "\\x" ++ Text.upperHex 2 n
        else if n ≤ 0xffff then
          "\\u" ++ Text.upperHex 4 n
        else
          "\\U" ++ Text.upperHex 8 n

/-
  A text in double quotes. Behind a byte order mark at its
  start all characters are escaped.
-/
def doubleQuoted (cs : List Char) : String :=
  let always := cs.head? = some byteOrderMark
  "\"" ++ String.join (cs.map (doubleQuotedChar always)) ++ "\""

/-
  The mark that tells how a block of lines ends: without a
  line break, with one, or with several.
-/
def chomping (cs : List Char) : String :=
  match cs.reverse with
  | [] => "-"
  | [c] => if isBreak c then "+" else "-"
  | c :: d :: _ =>
      if ¬ isBreak c then
        "-"
      else if isBreak d then
        "+"
      else
        ""

/-
  A block of lines. Its header tells the indentation when
  the first line does not show it.
-/
def literal (indent : Nat) (cs : List Char) : String :=
  let first := cs.headD '\n'
  "|" ++ (if first = ' ' ∨ isBreak first then "4" else "") ++ chomping cs
    ++ (if isBreak first then "" else "\n")
    ++ String.ofList (indented indent true cs)

/- A text as a scalar whose further lines have an indentation. -/
def scalarText (indent : Nat) (s : String) : String :=
  match styleOf s with
  | .plain => s
  | .singleQuoted => singleQuoted indent s.toList
  | .doubleQuoted => doubleQuoted s.toList
  | .literal => literal indent s.toList

end Yaml

end Pep9
