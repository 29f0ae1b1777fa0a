/-
  Numbers in base sixteen with a fixed count of digits.

  Key definitions: `lowerHex`, `upperHex`, `hexValue?`.
-/

namespace Pep9

namespace Text

def lowerHexDigit (n : Nat) : Char :=
  if n < 10 then Char.ofNat (48 + n) else Char.ofNat (87 + n)

def upperHexDigit (n : Nat) : Char :=
  if n < 10 then Char.ofNat (48 + n) else Char.ofNat (55 + n)

/-
  The last `width` digits of a number, the highest first,
  each digit written by `digit`.
-/
def hexDigits (digit : Nat → Char) : Nat → Nat → List Char
  | 0, _ => []
  | width + 1, n => hexDigits digit width (n / 16) ++ [digit (n % 16)]

def lowerHex (width : Nat) (n : Nat) : String :=
  String.ofList (hexDigits lowerHexDigit width n)

def upperHex (width : Nat) (n : Nat) : String :=
  String.ofList (hexDigits upperHexDigit width n)

/- The value of a digit in either case. -/
def hexValue? (c : Char) : Option Nat :=
  if '0' ≤ c ∧ c ≤ '9' then
    some (c.toNat - 48)
  else if 'a' ≤ c ∧ c ≤ 'f' then
    some (c.toNat - 87)
  else if 'A' ≤ c ∧ c ≤ 'F' then
    some (c.toNat - 55)
  else
    none

end Text

end Pep9
