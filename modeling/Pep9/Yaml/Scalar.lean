import Pep9.Text.Hexadecimal
import Pep9.Yaml.Source

/-
  Plain and quoted scalars of a document. Line breaks inside
  a scalar are folded: a single one becomes a space, and of
  several all but the first are kept.

  Key definitions: `Folded`, `Scanned`, `scanPlain`,
  `scanQuoted`.
-/

namespace Pep9

namespace Yaml

/-
  The line breaks of a gap: the first one, which is missing
  when it was escaped, and the others, the last first.
-/
structure Breaks where
  first : List Char
  others : List Char

/-
  The text of a scalar so far, and the gap behind it: blanks
  or line breaks. Characters stand the last first.
-/
structure Folded where
  text : List Char
  blanks : List Char
  breaks : Option Breaks

namespace Folded

def empty : Folded where
  text := []
  blanks := []
  breaks := none

/- The text with the gap behind it folded into it. -/
def joined (f : Folded) : List Char :=
  match f.breaks with
  | none => f.blanks ++ f.text
  | some b =>
      if b.first = ['\n'] then
        if b.others.isEmpty then ' ' :: f.text else b.others ++ f.text
      else
        b.others ++ b.first ++ f.text

/- The text with its gap folded and one more character. -/
def push (f : Folded) (c : Char) : Folded where
  text := c :: f.joined
  blanks := []
  breaks := none

/- A blank more in the gap; after a break it is dropped. -/
def blank (f : Folded) (c : Char) : Folded :=
  if f.breaks.isSome then f else { f with blanks := c :: f.blanks }

/- The character that a line break counts as. -/
def breakChar (c : Char) : Char :=
  if c = '\r' ∨ c = '\u0085' then '\n' else c

/- A line break more in the gap. -/
def lineBreak (f : Folded) (c : Char) : Folded :=
  match f.breaks with
  | none => { f with blanks := [], breaks := some ⟨[breakChar c], []⟩ }
  | some b =>
      { f with breaks := some { b with others := breakChar c :: b.others } }

/- An escaped line break, which stands for nothing. -/
def escapedBreak (f : Folded) : Folded where
  text := f.joined
  blanks := []
  breaks := some ⟨[], []⟩

end Folded

structure Scanned where
  text : String
  crossedLine : Bool

/- The text of characters that stand the last first. -/
def textOf (cs : List Char) : String :=
  String.ofList cs.reverse

/- Characters that end a plain scalar in brackets. -/
def isFlowIndicator (c : Char) : Bool :=
  [',', '?', '[', ']', '\x7b', '\x7d'].contains c

/- Whether a plain scalar ends before a character. -/
def endsPlain (flow : Bool) (c : Char) (rest : List Char) : Bool :=
  (c == ':' && endsWord rest) || (flow && isFlowIndicator c)

def plainWord (flow : Bool) : Nat → Folded → Reading Folded
  | 0, f => return f
  | fuel + 1, f => do
      match (← get).ready with
      | [] => return f
      | c :: rest =>
          if isGap c || endsPlain flow c rest then
            return f
          else
            skip
            need 2
            plainWord flow fuel (f.push c)

/-
  Reads a gap in a plain scalar that began at `start`. A tab
  must not stand before the column `indent`.
-/
def plainGap (indent : Nat) (start : Mark) : Nat → Folded → Reading Folded
  | 0, f => return f
  | fuel + 1, f => do
      let s ← get
      match s.ready with
      | [] => return f
      | c :: _ =>
          if isBlank c then
            if f.breaks.isSome && s.mark.column < indent && c == '\t' then
              failIn start.line .tabIndentation
            else
              skip
              need 1
              plainGap indent start fuel (f.blank c)
          else if isBreak c then
            need 2
            skipLine
            need 1
            plainGap indent start fuel (f.lineBreak c)
          else
            return f

/-
  Reads words and gaps of a plain scalar. It ends at a
  comment, at a mark between documents, and outside of
  brackets before a line that is not indented enough.
-/
def plainFrom (flow : Bool) (indent : Nat)
    (start : Mark) : Nat → Folded → Reading Folded
  | 0, f => return f
  | fuel + 1, f => do
      need 4
      let s ← get
      if s.atIndicator || s.ready.head? == some '#' then
        return f
      else
        let worded ← plainWord flow s.size f
        if (← current).any isGap then
          let spaced ← plainGap indent start s.size worded
          if !flow && (← get).mark.column < indent then
            return spaced
          else
            plainFrom flow indent start fuel spaced
        else
          return worded

/-
  Reads a plain scalar that starts here. Its lines after the
  first have at least the column `indent`.
-/
def scanPlain (flow : Bool) (indent : Nat) : Reading Scanned := do
  let s ← get
  let f ← plainFrom flow indent s.mark s.size .empty
  return ⟨textOf f.text, f.breaks.isSome⟩

/- The character that an escape of one letter stands for. -/
def escaped? : Char → Option Char
  | '0' => some '\x00'
  | 'a' => some '\x07'
  | 'b' => some '\x08'
  | 't' => some '\t'
  | '\t' => some '\t'
  | 'n' => some '\n'
  | 'v' => some '\x0b'
  | 'f' => some '\x0c'
  | 'r' => some '\r'
  | 'e' => some '\x1b'
  | ' ' => some ' '
  | '"' => some '"'
  | '\'' => some '\''
  | '\\' => some '\\'
  | 'N' => some '\u0085'
  | '_' => some '\u00a0'
  | 'L' => some '\u2028'
  | 'P' => some '\u2029'
  | _ => none

/- The count of digits in an escape by code point. -/
def codeLength? : Char → Option Nat
  | 'x' => some 2
  | 'u' => some 4
  | 'U' => some 8
  | _ => none

/- Whether a code is that of a character. -/
def isCodePoint (value : Nat) : Bool :=
  value < 0xD800 || (0xDFFF < value && value ≤ 0x10FFFF)

def readCode (start : Mark) (length : Nat) : Reading Char := do
  need length
  match ((← get).ready.take length).mapM Text.hexValue? with
  | none => failIn start.line .missingHexadecimal
  | some digits =>
      let value := digits.foldl (fun value d => value * 16 + d) 0
      if digits.length < length then
        failIn start.line .missingHexadecimal
      else if isCodePoint value then
        skipMany length
        return Char.ofNat value
      else
        failIn start.line .invalidCodePoint

/- Reads an escape, given what follows the backslash. -/
def readEscape (start : Mark) (rest : List Char) : Reading Char :=
  match rest.head?.bind escaped?, rest.head?.bind codeLength? with
  | some c, _ => do
      skipMany 2
      return c
  | none, some length => do
      skipMany 2
      readCode start length
  | none, none => failIn start.line .unknownEscape

/-
  Reads a word of a quoted scalar that began at `start`. An
  escaped line break ends the word.
-/
def quotedWord (quote : Char) (start : Mark) : Nat → Folded → Reading Folded
  | 0, f => return f
  | fuel + 1, f => do
      match (← get).ready with
      | [] => return f
      | c :: rest =>
          if isGap c then
            return f
          else if c = quote then
            if quote = '\'' ∧ rest.head? = some '\'' then
              skipMany 2
              need 2
              quotedWord quote start fuel (f.push c)
            else
              return f
          else if quote = '"' ∧ c = '\\' then
            if rest.head?.any isBreak then
              need 3
              skip
              skipLine
              return f.escapedBreak
            else
              let e ← readEscape start rest
              need 2
              quotedWord quote start fuel (f.push e)
          else
            skip
            need 2
            quotedWord quote start fuel (f.push c)

def quotedGap : Nat → Folded → Reading Folded
  | 0, f => return f
  | fuel + 1, f => do
      match (← get).ready with
      | [] => return f
      | c :: _ =>
          if isBlank c then
            skip
            need 1
            quotedGap fuel (f.blank c)
          else if isBreak c then
            need 2
            skipLine
            need 1
            quotedGap fuel (f.lineBreak c)
          else
            return f

/- Reads words and gaps of a quoted scalar up to its end. -/
def quotedFrom (quote : Char) (start : Mark) : Nat → Folded → Reading Folded
  | 0, f => return f
  | fuel + 1, f => do
      need 4
      let s ← get
      if s.atIndicator then
        failIn start.line .indicatorInQuote
      else if s.ready.isEmpty then
        failIn start.line .unclosedQuote
      else
        let worded ← quotedWord quote start s.size f
        need 1
        if (← current) == some quote then
          return worded
        else
          quotedFrom quote start fuel (← quotedGap s.size worded)

def scanQuoted (quote : Char) : Reading Scanned := do
  let s ← get
  skip
  let f ← quotedFrom quote s.mark s.size .empty
  skip
  return ⟨textOf f.joined, false⟩

end Yaml

end Pep9
