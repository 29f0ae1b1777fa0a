import Pep9.Text.Blank
import Pep9.Text.Numeral
import Pep9.Text.Quoted

/-
  Numbers in the input of the machine. White space is passed
  over, then the longest text is taken that may belong to a
  number: a sign, a base marker, and digits of that base with
  underscores. The rest stays for the next number.

  Key definitions: `InputFault`, `takeNumeral`, `readNumber`.
-/

namespace Pep9

namespace Machine

inductive InputFault where
  | ended
  | noNumeral
  | malformed (token : String)
  | outOfRange (token : String)
deriving DecidableEq, Repr

def InputFault.message : InputFault → String
  | .ended => "unexpected EOF"
  | .noNumeral => "expected integer"
  | .malformed token =>
      "strconv.ParseInt: parsing " ++ Text.quoted token ++ ": invalid syntax"
  | .outOfRange token =>
      "strconv.ParseInt: parsing " ++ Text.quoted token
        ++ ": value out of range"

/- A part of the input, and what follows it. -/
structure Taken where
  token : List Char
  rest : List Char

/- A digit of a base up to sixteen, or an underscore. -/
def belongsTo (base : Nat) (c : Char) : Bool :=
  c = '_' || (Text.hexValue? c).any (· < base)

def takeSign : List Char → Taken
  | '+' :: rest => ⟨['+'], rest⟩
  | '-' :: rest => ⟨['-'], rest⟩
  | cs => ⟨[], cs⟩

/- Takes all digits of a base and underscores. -/
def takeDigits (base : Nat) (cs : List Char) : Taken where
  token := cs.takeWhile (belongsTo base)
  rest := cs.dropWhile (belongsTo base)

/- The base that a letter after a zero marks. -/
def markedBase? (c : Char) : Option Nat :=
  if c = 'b' ∨ c = 'B' then
    some 2
  else if c = 'o' ∨ c = 'O' then
    some 8
  else if c = 'x' ∨ c = 'X' then
    some 16
  else
    none

/-
  Takes a numeral that starts with a zero, given what
  follows the zero.
-/
def takeAfterZero (cs : List Char) : Taken :=
  match cs with
  | [] => ⟨['0'], []⟩
  | c :: rest =>
      match markedBase? c with
      | some base =>
          let digits := takeDigits base rest
          ⟨'0' :: c :: digits.token, digits.rest⟩
      | none =>
          let digits := takeDigits 8 cs
          ⟨'0' :: digits.token, digits.rest⟩

def takeNumeral : List Char → Except InputFault Taken
  | [] => .error .ended
  | c :: rest =>
      if c = '0' then
        .ok (takeAfterZero rest)
      else if belongsTo 10 c then
        .ok (takeDigits 10 (c :: rest))
      else
        .error .noNumeral

def valueOf (token : List Char) : Except InputFault Int :=
  match Text.Numeral.readInt 64 token with
  | .ok n => .ok n
  | .error .malformed => .error (.malformed (String.ofList token))
  | .error .outOfRange => .error (.outOfRange (String.ofList token))

/-
  Reads a number of 64 bits. What was taken is gone also
  when there is a fault; the character that does not belong
  to a number stays.
-/
def readNumber (input : List Char) : Except InputFault Int × List Char :=
  let sign := takeSign (input.dropWhile Text.isBlank)
  match takeNumeral sign.rest with
  | .error fault => (.error fault, sign.rest)
  | .ok numeral => (valueOf (sign.token ++ numeral.token), numeral.rest)

end Machine

end Pep9
