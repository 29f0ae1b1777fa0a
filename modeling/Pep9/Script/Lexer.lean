import Pep9.Script.Token

/-
  From script text to tokens. The lexer is an automaton: it
  reads one character at a time, and its state holds the
  tokens found so far.

  Key definitions: `Lexer.Error`, `Lexer.Mode`, `Lexer.State`,
  `Lexer.State.step`, `Lexer.State.finish`, `lex`.
-/

namespace Pep9

namespace Script

namespace Lexer

inductive Cause where
  | unexpectedCharacter (c : Char)
  | unterminatedString
  | unknownEscape (c : Char)
  | unmatchedUnindent
deriving DecidableEq, Repr

/- A lexical error and the line it is reported for. -/
structure Error where
  line : Nat
  cause : Cause
deriving DecidableEq, Repr

def Error.message (e : Error) : String :=
  "line " ++ toString e.line ++ ": " ++
    match e.cause with
    | .unexpectedCharacter c => "unexpected character " ++ Text.quotedChar c
    | .unterminatedString => "unterminated string literal"
    | .unknownEscape c => "unknown escape sequence \\" ++ String.singleton c
    | .unmatchedUnindent => "unindent does not match any outer indentation level"

/- An error together with the tokens found before it. -/
structure Failure where
  error : Error
  tokens : List Token

/- Identifiers start with an ASCII letter or an underscore. -/
def isWordStart (c : Char) : Bool :=
  c == '_' || c.isAlpha

/- Identifiers go on with letters, digits and underscores. -/
def isWordChar (c : Char) : Bool :=
  isWordStart c || c.isDigit

/- Characters that separate tokens within a line. -/
def isGap (c : Char) : Bool :=
  c == ' ' || c == '\t' || c == '\r' || c == '\x0c'

/- Characters that make a line blank when they come first. -/
def startsBlankLine (c : Char) : Bool :=
  c == '\n' || c == '\r' || c == '#' || c == '\x00'

/- A tab moves on to the next multiple of this column. -/
def tabWidth : Nat :=
  8

/-
  The token of a character that is a token by itself,
  whatever follows it.
-/
def lone? : Char → Option Kind
  | '(' => some .leftParen
  | ')' => some .rightParen
  | '[' => some .leftBracket
  | ']' => some .rightBracket
  | ',' => some .comma
  | ':' => some .colon
  | '*' => some .star
  | '/' => some .slash
  | '%' => some .percent
  | _ => none

/-
  The token of a character that may be followed by an equals
  sign. An exclamation mark is a token only with one.
-/
def short? : Char → Option Kind
  | '+' => some .plus
  | '-' => some .minus
  | '<' => some .less
  | '>' => some .greater
  | '=' => some .assign
  | _ => none

/- The token of a character and the equals sign after it. -/
def long? : Char → Option Kind
  | '+' => some .plusAssign
  | '-' => some .minusAssign
  | '<' => some .lessEquals
  | '>' => some .greaterEquals
  | '=' => some .equals
  | '!' => some .notEquals
  | _ => none

/- The character that an escape letter of a string stands for. -/
def escape? : Char → Option Char
  | 'n' => some '\n'
  | 't' => some '\t'
  | '\\' => some '\\'
  | '\'' => some '\''
  | '"' => some '"'
  | _ => none

/-
  What the automaton is in the middle of. Texts under way
  are kept backwards.
-/
inductive Mode where
  /- Before the first character of a line, at a column. -/
  | lineStart (column : Nat)
  /- In a line that holds no tokens. -/
  | blankLine
  /- Between two tokens of a line. -/
  | between
  /- In a comment behind tokens. -/
  | comment
  /- In an identifier or a keyword. -/
  | word (backwards : List Char)
  /- In an integer. -/
  | number (backwards : List Char)
  /- In a string literal that started on a line. -/
  | string (quote : Char) (line : Nat) (backwards : List Char)
  /- After a backslash in a string literal. -/
  | escape (quote : Char) (line : Nat) (backwards : List Char)
  /- After a backslash between tokens. -/
  | continuation
  /- After a character that an equals sign may follow. -/
  | operator (first : Char)
deriving DecidableEq, Repr

/-
  The state of the lexer. `indents` holds the columns of the
  open blocks, the innermost first; the outermost column 0
  is not listed. `depth` counts the open brackets.
  `emitted` holds the tokens found so far, the last first.
-/
structure State where
  mode : Mode
  line : Nat
  indents : List Nat
  depth : Nat
  emitted : List Token

namespace State

def start : State where
  mode := .lineStart 0
  line := 1
  indents := []
  depth := 0
  emitted := []

/- Adds a token that starts on a given line. -/
def emitAt (s : State) (kind : Kind) (lexeme : String) (line : Nat) : State :=
  { s with emitted := ⟨kind, lexeme, line⟩ :: s.emitted }

def emit (s : State) (kind : Kind) (lexeme : String) : State :=
  s.emitAt kind lexeme s.line

/- Stops with an error on a line. -/
def fail (s : State) (line : Nat) (cause : Cause) : Except Failure State :=
  .error ⟨⟨line, cause⟩, s.emitted.reverse⟩

/-
  Closes the blocks that are deeper than a column, and
  demands that the column is that of the next one.
-/
def dedent (column : Nat) : List Nat → State → Except Failure State
  | [], s =>
      if column = 0 then
        .ok { s with indents := [] }
      else
        { s with indents := [] }.fail s.line .unmatchedUnindent
  | top :: rest, s =>
      if column < top then
        dedent column rest (s.emit .dedent "")
      else if column = top then
        .ok { s with indents := top :: rest }
      else
        { s with indents := top :: rest }.fail s.line .unmatchedUnindent

/- Opens or closes blocks for a line that starts at a column. -/
def indentTo (s : State) (column : Nat) : Except Failure State :=
  if column > s.indents.headD 0 then
    .ok ({ s with indents := column :: s.indents }.emit .indent "")
  else
    dedent column s.indents s

/- The number of open brackets after a token. -/
def depthAfter (depth : Nat) : Kind → Nat
  | .leftParen => depth + 1
  | .leftBracket => depth + 1
  | .rightParen => depth - 1
  | .rightBracket => depth - 1
  | _ => depth

/- Reads a character between two tokens. -/
def stepBetween (s : State) (c : Char) : Except Failure State :=
  if isGap c then
    .ok { s with mode := .between }
  else if c = '#' then
    .ok { s with mode := .comment }
  else if c = '\n' then
    if s.depth = 0 then
      .ok { s.emit .newline "" with mode := .lineStart 0, line := s.line + 1 }
    else
      .ok { s with mode := .between, line := s.line + 1 }
  else if isWordStart c then
    .ok { s with mode := .word [c] }
  else if c.isDigit then
    .ok { s with mode := .number [c] }
  else if c = '"' ∨ c = '\'' then
    .ok { s with mode := .string c s.line [] }
  else if c = '\\' then
    .ok { s with mode := .continuation }
  else if (long? c).isSome then
    .ok { s with mode := .operator c }
  else
    match lone? c with
    | some kind =>
        .ok
          { s.emit kind (String.singleton c) with
            mode := .between
            depth := depthAfter s.depth kind }
    | none => s.fail s.line (.unexpectedCharacter c)

/- Ends an identifier or a keyword. -/
def endWord (s : State) (backwards : List Char) : State :=
  let lexeme := String.ofList backwards.reverse
  s.emit ((Kind.keyword? lexeme).getD .identifier) lexeme

def endNumber (s : State) (backwards : List Char) : State :=
  s.emit .integer (String.ofList backwards.reverse)

/- Ends an operator that no equals sign follows. -/
def endOperator (s : State) (first : Char) : Except Failure State :=
  match short? first with
  | some kind => .ok (s.emit kind (String.singleton first))
  | none => s.fail s.line (.unexpectedCharacter first)

def step (s : State) (c : Char) : Except Failure State :=
  match s.mode with
  | .lineStart column =>
      if c = ' ' then
        .ok { s with mode := .lineStart (column + 1) }
      else if c = '\t' then
        .ok { s with mode := .lineStart ((column / tabWidth + 1) * tabWidth) }
      else if c = '\x0c' then
        .ok { s with mode := .lineStart 0 }
      else if c = '\n' then
        .ok { s with mode := .lineStart 0, line := s.line + 1 }
      else if startsBlankLine c then
        .ok { s with mode := .blankLine }
      else do
        (← s.indentTo column).stepBetween c
  | .blankLine =>
      if c = '\n' then
        .ok { s with mode := .lineStart 0, line := s.line + 1 }
      else
        .ok s
  | .between => s.stepBetween c
  | .comment =>
      if c = '\n' then
        s.stepBetween c
      else
        .ok s
  | .word backwards =>
      if isWordChar c then
        .ok { s with mode := .word (c :: backwards) }
      else
        (s.endWord backwards).stepBetween c
  | .number backwards =>
      if c.isDigit then
        .ok { s with mode := .number (c :: backwards) }
      else
        (s.endNumber backwards).stepBetween c
  | .string quote line backwards =>
      if c = quote then
        .ok
          { s.emitAt .string (String.ofList backwards.reverse) line with
            mode := .between }
      else if c = '\n' then
        s.fail line .unterminatedString
      else if c = '\\' then
        .ok { s with mode := .escape quote line backwards }
      else
        .ok { s with mode := .string quote line (c :: backwards) }
  | .escape quote line backwards =>
      match escape? c with
      | some value => .ok { s with mode := .string quote line (value :: backwards) }
      | none => s.fail line (.unknownEscape c)
  | .continuation =>
      if c = '\n' then
        .ok { s with mode := .between, line := s.line + 1 }
      else
        s.fail s.line (.unexpectedCharacter '\\')
  | .operator first =>
      match c, long? first with
      | '=', some kind =>
          .ok
            { s.emit kind (String.ofList [first, '=']) with
              mode := .between }
      | _, _ => do
          (← s.endOperator first).stepBetween c

/- Ends the token that is under way at the end of the text. -/
def flush (s : State) : Except Failure State :=
  match s.mode with
  | .lineStart _ => .ok s
  | .blankLine => .ok s
  | .between => .ok s
  | .comment => .ok s
  | .word backwards => .ok (s.endWord backwards)
  | .number backwards => .ok (s.endNumber backwards)
  | .string _ line _ => s.fail line .unterminatedString
  | .escape _ line _ => s.fail line (.unknownEscape '\x00')
  | .continuation => s.fail s.line (.unexpectedCharacter '\\')
  | .operator first => s.endOperator first

/-
  Ends the last logical line, closes all open blocks and
  marks the end.
-/
def close (s : State) : List Token :=
  let newline : List Token :=
    match s.emitted with
    | [] => []
    | last :: _ => if last.kind = .newline then [] else [⟨.newline, "", s.line⟩]
  s.emitted.reverse ++ newline
    ++ s.indents.map (fun _ => ⟨.dedent, "", s.line⟩)
    ++ [⟨.eof, "", s.line⟩]

/- Reads the rest of a text, character by character. -/
def run : State → List Char → Except Failure (List Token)
  | s, [] => s.flush.map close
  | s, c :: rest =>
      match s.step c with
      | .ok next => run next rest
      | .error failure => .error failure

end State

end Lexer

/-
  Cuts a script into tokens. Every logical line ends with a
  newline token, every block that is opened is closed, and
  the last token marks the end.
-/
def lex (source : String) : Except Lexer.Failure (List Token) :=
  Lexer.State.start.run source.toList

end Script

end Pep9
