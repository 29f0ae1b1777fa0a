import Pep9.Yaml.Real
import Pep9.Yaml.Timestamp

/-
  What a plain scalar of a document stands for.

  Key definitions: `Resolved`, `Resolved.tag`, `resolve`.
-/

namespace Pep9

namespace Yaml

inductive Resolved where
  | null
  | bool (value : Bool)
  | int (value : Int)
  | float (value : Real)
  | timestamp
  | string
deriving DecidableEq, Repr

def Resolved.tag : Resolved → String
  | null => "!!null"
  | bool _ => "!!bool"
  | int _ => "!!int"
  | float _ => "!!float"
  | timestamp => "!!timestamp"
  | string => "!!str"

/- Words with a fixed meaning. -/
def word? : String → Option Resolved
  | "" => some .null
  | "~" => some .null
  | "null" => some .null
  | "Null" => some .null
  | "NULL" => some .null
  | "true" => some (.bool true)
  | "True" => some (.bool true)
  | "TRUE" => some (.bool true)
  | "false" => some (.bool false)
  | "False" => some (.bool false)
  | "FALSE" => some (.bool false)
  | ".nan" => some (.float .notANumber)
  | ".NaN" => some (.float .notANumber)
  | ".NAN" => some (.float .notANumber)
  | ".inf" => some (.float (.infinite false))
  | ".Inf" => some (.float (.infinite false))
  | ".INF" => some (.float (.infinite false))
  | "+.inf" => some (.float (.infinite false))
  | "+.Inf" => some (.float (.infinite false))
  | "+.INF" => some (.float (.infinite false))
  | "-.inf" => some (.float (.infinite true))
  | "-.Inf" => some (.float (.infinite true))
  | "-.INF" => some (.float (.infinite true))
  | _ => none

/-
  An integer whose sign stands behind its base marker, such
  as `0b-1`.
-/
def lateSign? : List Char → Option Int
  | '0' :: marker :: sign :: rest => do
      guard (sign = '-' ∨ sign = '+')
      let base ← if marker = 'b' then some 2 else if marker = 'o' then some 8 else none
      guard (¬ rest.isEmpty ∧ ¬ rest.contains '_')
      let n ← (Text.Numeral.digits base (Nat.pow 2 64 - 1) 0 rest).toOption
      let i : Int := if sign = '-' then -n else n
      guard (-0x8000000000000000 ≤ i ∧ i < 0x8000000000000000)
      return i
  | _ => none

/- The integer that a text without underscores denotes. -/
def integer? (cs : List Char) : Option Int :=
  match Text.Numeral.readInt 64 cs,
    Text.Numeral.readNat (Nat.pow 2 64 - 1) cs with
  | .ok i, _ => some i
  | _, .ok n => some n
  | _, _ => lateSign? cs

/- The number or point in time that a text denotes. -/
def number (cs : List Char) : Resolved :=
  let plain := cs.filter (· != '_')
  if Timestamp.isTimestamp cs then
    .timestamp
  else
    match integer? plain, (Decimal.read? plain).bind Real.ofDecimal? with
    | some i, _ => .int i
    | none, some x => .float x
    | none, none => .string

def fraction (cs : List Char) : Resolved :=
  if Text.Numeral.underscoresBetween Char.isDigit false cs then
    match (Decimal.read? (cs.filter (· != '_'))).bind Real.ofDecimal? with
    | some x => .float x
    | none => .string
  else
    .string

/- The meaning of a plain scalar. -/
def resolve (s : String) : Resolved :=
  match word? s, s.toList with
  | some meaning, _ => meaning
  | none, '.' :: rest => fraction ('.' :: rest)
  | none, c :: rest =>
      if c.isDigit || c == '+' || c == '-' then number (c :: rest) else .string
  | none, [] => .null

end Yaml

end Pep9
