import Pep9.Text.Column
import Pep9.Text.Quoted

/-
  Tokens of the script language.

  Key definitions: `Kind`, `Kind.name`, `Kind.symbol`,
  `Kind.ofCode`, `Kind.keyword?`, `Token`, `Token.describe`.
-/

namespace Pep9

namespace Script

/-
  The category of a token. `foreign` is a category code that
  the language does not use.
-/
inductive Kind where
  | eof
  | newline
  | indent
  | dedent
  | identifier
  | integer
  | string
  | kwDef
  | kwReturn
  | kwIf
  | kwElif
  | kwElse
  | kwWhile
  | kwFor
  | kwIn
  | kwPass
  | kwBreak
  | kwContinue
  | kwAnd
  | kwOr
  | kwNot
  | leftParen
  | rightParen
  | leftBracket
  | rightBracket
  | comma
  | colon
  | plus
  | minus
  | star
  | slash
  | percent
  | assign
  | plusAssign
  | minusAssign
  | equals
  | notEquals
  | less
  | greater
  | lessEquals
  | greaterEquals
  | foreign (code : Int)
deriving DecidableEq, Repr, Inhabited

namespace Kind

/- The kinds of the language in the order of their codes. -/
def table : List Kind :=
  [eof, newline, indent, dedent, identifier, integer, string,
    kwDef, kwReturn, kwIf, kwElif, kwElse, kwWhile, kwFor, kwIn,
    kwPass, kwBreak, kwContinue, kwAnd, kwOr, kwNot,
    leftParen, rightParen, leftBracket, rightBracket, comma, colon,
    plus, minus, star, slash, percent,
    assign, plusAssign, minusAssign,
    equals, notEquals, less, greater, lessEquals, greaterEquals]

/- The kind with a given code, counted from zero. -/
def ofCode (code : Int) : Kind :=
  if code < 0 then
    foreign code
  else
    table.getD code.toNat (foreign code)

def name : Kind → String
  | eof => "EOF"
  | newline => "NEWLINE"
  | indent => "INDENT"
  | dedent => "DEDENT"
  | identifier => "IDENTIFIER"
  | integer => "INTEGER"
  | string => "STRING"
  | kwDef => "DEF"
  | kwReturn => "RETURN"
  | kwIf => "IF"
  | kwElif => "ELIF"
  | kwElse => "ELSE"
  | kwWhile => "WHILE"
  | kwFor => "FOR"
  | kwIn => "IN"
  | kwPass => "PASS"
  | kwBreak => "BREAK"
  | kwContinue => "CONTINUE"
  | kwAnd => "AND"
  | kwOr => "OR"
  | kwNot => "NOT"
  | leftParen => "LPAREN"
  | rightParen => "RPAREN"
  | leftBracket => "LBRACKET"
  | rightBracket => "RBRACKET"
  | comma => "COMMA"
  | colon => "COLON"
  | plus => "PLUS"
  | minus => "MINUS"
  | star => "STAR"
  | slash => "SLASH"
  | percent => "PERCENT"
  | assign => "ASSIGN"
  | plusAssign => "PLUS_ASSIGN"
  | minusAssign => "MINUS_ASSIGN"
  | equals => "EQUALS"
  | notEquals => "NOT_EQ"
  | less => "LESS"
  | greater => "GREATER"
  | lessEquals => "LESS_EQ"
  | greaterEquals => "GREATER_EQ"
  | foreign code => "TokenType(" ++ toString code ++ ")"

/- The spelling of an operator; other kinds show their name. -/
def symbol : Kind → String
  | plus => "+"
  | minus => "-"
  | star => "*"
  | slash => "/"
  | percent => "%"
  | assign => "="
  | plusAssign => "+="
  | minusAssign => "-="
  | equals => "=="
  | notEquals => "!="
  | less => "<"
  | greater => ">"
  | lessEquals => "<="
  | greaterEquals => ">="
  | kwAnd => "and"
  | kwOr => "or"
  | kwNot => "not"
  | kind => kind.name

/- The keyword with a given spelling. -/
def keyword? : String → Option Kind
  | "def" => some kwDef
  | "return" => some kwReturn
  | "if" => some kwIf
  | "elif" => some kwElif
  | "else" => some kwElse
  | "while" => some kwWhile
  | "for" => some kwFor
  | "in" => some kwIn
  | "pass" => some kwPass
  | "break" => some kwBreak
  | "continue" => some kwContinue
  | "and" => some kwAnd
  | "or" => some kwOr
  | "not" => some kwNot
  | _ => none

end Kind

/-
  A token with its text and the line on which it starts.
  The text of a string literal is its value, and the text
  of a layout token is empty.
-/
structure Token where
  kind : Kind
  lexeme : String
  line : Int
deriving DecidableEq, Repr, Inhabited

namespace Token

def describe (t : Token) : String :=
  Text.padRight 10 t.kind.name ++ " "
    ++ Text.padRight 14 (Text.quoted t.lexeme)
    ++ "  line " ++ toString t.line

/- What stands after the last token. -/
def endOfInput : Token :=
  { kind := .eof, lexeme := "", line := 0 }

end Token

end Script

end Pep9
