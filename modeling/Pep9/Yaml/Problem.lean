/-
  Why a text is not a document.

  Key definitions: `Problem`, `Error`, `Error.line?`,
  `Error.message`.
-/

namespace Pep9

namespace Yaml

inductive Problem where
  | controlCharacter
  | strayCharacter
  | strayEntry
  | strayKey
  | strayValue
  | missingColon
  | tooDeep
  | tabIndentation
  | unclosedQuote
  | indicatorInQuote
  | unknownEscape
  | missingHexadecimal
  | invalidCodePoint
  | missingKey
  | missingDash
  | missingContent
  | unclosedSequence
  | unclosedMapping
  | mergeOfNoMapping
deriving DecidableEq, Repr

def Problem.text : Problem → String
  | controlCharacter => "control characters are not allowed"
  | strayCharacter => "found character that cannot start any token"
  | strayEntry => "block sequence entries are not allowed in this context"
  | strayKey => "mapping keys are not allowed in this context"
  | strayValue => "mapping values are not allowed in this context"
  | missingColon => "could not find expected ':'"
  | tooDeep => "exceeded max depth of 10000"
  | tabIndentation => "found a tab character that violates indentation"
  | unclosedQuote => "found unexpected end of stream"
  | indicatorInQuote => "found unexpected document indicator"
  | unknownEscape => "found unknown escape character"
  | missingHexadecimal => "did not find expected hexdecimal number"
  | invalidCodePoint => "found invalid Unicode character escape code"
  | missingKey => "did not find expected key"
  | missingDash => "did not find expected '-' indicator"
  | missingContent => "did not find expected node content"
  | unclosedSequence => "did not find expected ',' or ']'"
  | unclosedMapping => "did not find expected ',' or '\x7d'"
  | mergeOfNoMapping =>
      "map merge requires map or sequence of maps as the value"

/- What a problem is found in. -/
inductive Origin where
  | bytes
  | characters
  | tokens
deriving DecidableEq, Repr

/-
  A problem, the line on which the construct around it starts
  and the line on which it is found. Lines count from zero.
-/
structure Error where
  origin : Origin
  context : Nat
  place : Nat
  problem : Problem
deriving DecidableEq, Repr

namespace Error

def unplaced (problem : Problem) : Error where
  origin := .tokens
  context := 0
  place := 0
  problem := problem

/-
  A character that must not stand in a document. It has no
  line of its own; those of an error that was noted before
  stay.
-/
def unreadable (noted : Option Error) : Error where
  origin := .bytes
  context := (noted.map Error.context).getD 0
  place := (noted.map Error.place).getD 0
  problem := .controlCharacter

/-
  The line to report: that of the construct, unless it is the
  first of the text, and else that of the problem. Lines of
  characters are counted from one.
-/
def line? (e : Error) : Option Nat :=
  let line := if e.context ≠ 0 then e.context else e.place
  if line = 0 then
    none
  else if e.origin = .characters then
    some (line + 1)
  else
    some line

def message (e : Error) : String :=
  match e.line? with
  | none => "yaml: " ++ e.problem.text
  | some line => "yaml: line " ++ toString line ++ ": " ++ e.problem.text

end Error

end Yaml

end Pep9
