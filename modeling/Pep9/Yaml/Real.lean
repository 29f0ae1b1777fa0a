import Pep9.Text.Numeral

/-
  Decimal fractions in a document. Of a fraction only the
  whole part of the nearest double-precision number matters.

  Key definitions: `Decimal`, `Decimal.read?`,
  `Decimal.nearestWhole?`, `Real`.
-/

namespace Pep9

namespace Yaml

/- The number `digits * 10 ^ exponent`, or its negative. -/
structure Decimal where
  negative : Bool
  digits : Nat
  exponent : Int

namespace Decimal

def value (cs : List Char) : Nat :=
  cs.foldl (fun n c => n * 10 + (c.toNat - 48)) 0

/-
  Reads an exponent: nothing, or a letter `e`, a sign and
  at least one digit.
-/
def readExponent? : List Char → Option Int
  | [] => some 0
  | e :: rest => do
      guard (e = 'e' ∨ e = 'E')
      let negative := rest.head? = some '-'
      let ds := if negative ∨ rest.head? = some '+' then rest.tail else rest
      guard (¬ ds.isEmpty ∧ ds.all Char.isDigit)
      return if negative then -(value ds : Int) else value ds

/-
  Reads digits with an optional point among them, or a
  point and digits; then an optional exponent.
-/
def readUnsigned? (negative : Bool) (cs : List Char) : Option Decimal := do
  let whole := cs.takeWhile Char.isDigit
  let rest := cs.dropWhile Char.isDigit
  let fraction :=
    if rest.head? = some '.' then rest.tail.takeWhile Char.isDigit else []
  let tail :=
    if rest.head? = some '.' then rest.tail.dropWhile Char.isDigit else rest
  guard (¬ (whole.isEmpty ∧ fraction.isEmpty))
  let exponent ← readExponent? tail
  return ⟨negative, value (whole ++ fraction), exponent - fraction.length⟩

/- Reads a decimal fraction with an optional sign. -/
def read? : List Char → Option Decimal
  | '-' :: rest => readUnsigned? true rest
  | '+' :: rest => readUnsigned? false rest
  | cs => readUnsigned? false cs

/- The quotient rounded to the nearest, a half to the even. -/
def roundDiv (num : Nat) (den : Nat) : Nat :=
  let q := num / den
  let r := num % den
  if 2 * r > den ∨ (2 * r = den ∧ q % 2 = 1) then q + 1 else q

/-
  The whole part of the double-precision number nearest to
  a positive fraction, or nothing when that is infinite.
  Doubles of this size have 53 significant bits.
-/
def wholeOfRatio? (num : Nat) (den : Nat) : Option Nat :=
  let guess : Int := (Nat.log2 num : Int) - Nat.log2 den
  let exact :=
    if guess ≥ 0 then
      den * Nat.pow 2 guess.toNat ≤ num
    else
      den ≤ num * Nat.pow 2 (-guess).toNat
  let scale : Int := (if exact then guess else guess - 1) - 52
  let whole :=
    if scale ≥ 0 then
      roundDiv num (den * Nat.pow 2 scale.toNat) * Nat.pow 2 scale.toNat
    else
      roundDiv (num * Nat.pow 2 (-scale).toNat) den
        / Nat.pow 2 (-scale).toNat
  if whole < Nat.pow 2 1024 then some whole else none

/-
  The whole part of the double-precision number nearest to
  the magnitude, or nothing when that is infinite. Numbers
  far outside the range are not computed.
-/
def nearestWhole? (d : Decimal) : Option Nat :=
  let places : Int := (toString d.digits).length + d.exponent
  if d.digits = 0 ∨ places < 0 then
    some 0
  else if places > 310 then
    none
  else if d.exponent ≥ 0 then
    wholeOfRatio? (d.digits * Nat.pow 10 d.exponent.toNat) 1
  else
    wholeOfRatio? d.digits (Nat.pow 10 (-d.exponent).toNat)

end Decimal

/- A real number as far as it can become an integer. -/
inductive Real where
  | notANumber
  | infinite (negative : Bool)
  | finite (whole : Int)
deriving DecidableEq, Repr

/- The number of a decimal fraction, unless it is too large. -/
def Real.ofDecimal? (d : Decimal) : Option Real :=
  d.nearestWhole?.map fun n =>
    .finite (if d.negative then -(n : Int) else n)

end Yaml

end Pep9
