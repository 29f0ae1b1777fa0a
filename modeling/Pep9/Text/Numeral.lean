import Pep9.Text.Hexadecimal

/-
  Integers written in a text: an optional sign, an optional
  base marker (`0x`, `0o`, `0b` in either case, or a plain
  leading zero for octal), and digits that may be set apart
  by single underscores.

  Key definitions: `Numeral.Error`, `Numeral.readInt`,
  `Numeral.readDecimal?`.
-/

namespace Pep9

namespace Text

namespace Numeral

/- Why a text is not the numeral of an allowed integer. -/
inductive Error where
  | malformed
  | outOfRange
deriving DecidableEq, Repr

/- The value of a digit or letter, counting on from nine. -/
def digitValue? (c : Char) : Option Nat :=
  if '0' ≤ c ∧ c ≤ '9' then
    some (c.toNat - 48)
  else if 'a' ≤ c ∧ c ≤ 'z' then
    some (c.toNat - 87)
  else if 'A' ≤ c ∧ c ≤ 'Z' then
    some (c.toNat - 55)
  else
    none

/-
  Reads the digits of a base from the left. Reading stops
  at the first character that is no digit, or as soon as
  the value exceeds `limit`. Underscores are passed over.
-/
def digits (base : Nat) (limit : Nat) : Nat → List Char → Except Error Nat
  | value, [] => .ok value
  | value, c :: rest =>
      if c = '_' then
        digits base limit value rest
      else
        match digitValue? c with
        | none => .error .malformed
        | some d =>
            if d ≥ base then
              .error .malformed
            else if value * base + d > limit then
              .error .outOfRange
            else
              digits base limit (value * base + d) rest

/- The base that an unsigned numeral names, and its digits. -/
def splitBase : List Char → Nat × List Char
  | '0' :: c :: d :: rest =>
      if c = 'b' ∨ c = 'B' then
        (2, d :: rest)
      else if c = 'o' ∨ c = 'O' then
        (8, d :: rest)
      else if c = 'x' ∨ c = 'X' then
        (16, d :: rest)
      else
        (8, c :: d :: rest)
  | '0' :: rest => (8, rest)
  | cs => (10, cs)

/-
  Whether each underscore stands between two digits, where
  `afterDigit` tells whether a digit came just before.
-/
def underscoresBetween (isDigit : Char → Bool)
    (afterDigit : Bool) : List Char → Bool
  | [] => true
  | c :: rest =>
      if c = '_' then
        afterDigit && (rest.head?.map isDigit).getD false
          && underscoresBetween isDigit false rest
      else
        underscoresBetween isDigit (isDigit c) rest

def isAnyDigit (c : Char) : Bool :=
  (digitValue? c).isSome

/-
  Whether the underscores of an unsigned numeral are well
  placed. A base marker counts as a digit, so that `0x_1`
  and `0_7` are allowed.
-/
def underscoresAllowed (cs : List Char) : Bool :=
  underscoresBetween isAnyDigit false cs

/-
  The value of an unsigned numeral that is at most `limit`.
-/
def readNat (limit : Nat) (cs : List Char) : Except Error Nat :=
  if cs.isEmpty then
    .error .malformed
  else
    match digits (splitBase cs).1 limit 0 (splitBase cs).2 with
    | .error e => .error e
    | .ok n =>
        if underscoresAllowed cs then
          .ok n
        else
          .error .malformed

/-
  The value of a signed numeral that fits a two's complement
  word of `bits` bits.
-/
def readInt (bits : Nat) (cs : List Char) : Except Error Int :=
  match cs with
  | '-' :: rest =>
      match readNat (Nat.pow 2 bits - 1) rest with
      | .error e => .error e
      | .ok n =>
          if n > Nat.pow 2 (bits - 1) then
            .error .outOfRange
          else
            .ok (-(n : Int))
  | _ =>
      match readNat (Nat.pow 2 bits - 1)
        (if cs.head? = some '+' then cs.tail else cs) with
      | .error e => .error e
      | .ok n =>
          if n ≥ Nat.pow 2 (bits - 1) then
            .error .outOfRange
          else
            .ok n

/-
  The value of a plain decimal numeral with an optional
  sign, when it fits 64 bits.
-/
def readDecimal? (s : String) : Option Int64 :=
  let negative := s.toList.head? = some '-'
  let cs := if negative ∨ s.toList.head? = some '+' then s.toList.tail else s.toList
  if cs.isEmpty ∨ ¬ cs.all Char.isDigit then
    none
  else
    match digits 10 (Nat.pow 2 63) 0 cs with
    | .error _ => none
    | .ok n =>
        if negative then
          some (Int64.ofInt (-(n : Int)))
        else if n < Nat.pow 2 63 then
          some (Int64.ofNat n)
        else
          none

end Numeral

end Text

end Pep9
