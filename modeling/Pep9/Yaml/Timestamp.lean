/-
  Texts that YAML takes for points in time: a date, alone
  or with a time of day behind it.

    2001-12-14
    2001-12-14 21:59:43.10
    2001-12-14T21:59:43.10Z
    2001-12-14t21:59:43.10-05:00

  Key definitions: `Timestamp.isTimestamp`.
-/

namespace Pep9

namespace Yaml

namespace Timestamp

/- Reads a number of one or two digits. -/
def number? : List Char → Option (Nat × List Char)
  | a :: b :: rest =>
      if ¬ a.isDigit then
        none
      else if b.isDigit then
        some ((a.toNat - 48) * 10 + (b.toNat - 48), rest)
      else
        some (a.toNat - 48, b :: rest)
  | [a] => if a.isDigit then some (a.toNat - 48, []) else none
  | [] => none

def numberBelow? (bound : Nat) (cs : List Char) : Option (List Char) := do
  let (n, rest) ← number? cs
  guard (n < bound)
  return rest

def char? (c : Char) : List Char → Option (List Char)
  | d :: rest => if d = c then some rest else none
  | [] => none

/- Whether a year has a 29th of February. -/
def isLeap (year : Nat) : Bool :=
  year % 4 == 0 && (year % 100 != 0 || year % 400 == 0)

def daysIn (year : Nat) (month : Nat) : Nat :=
  if month = 2 then
    if isLeap year then 29 else 28
  else if month = 4 ∨ month = 6 ∨ month = 9 ∨ month = 11 then
    30
  else
    31

/- Reads a date with a year of four digits. -/
def date? : List Char → Option (List Char)
  | a :: b :: c :: d :: rest => do
      guard ([a, b, c, d].all Char.isDigit)
      let year := ([a, b, c, d].foldl (fun n x => n * 10 + (x.toNat - 48)) 0)
      let (month, rest) ← number? (← char? '-' rest)
      guard (1 ≤ month ∧ month ≤ 12)
      let (day, rest) ← number? (← char? '-' rest)
      guard (1 ≤ day ∧ day ≤ daysIn year month)
      return rest
  | _ => none

/- Passes over a fraction of a second, if there is one. -/
def skipFraction : List Char → List Char
  | p :: d :: rest =>
      if (p = '.' ∨ p = ',') ∧ d.isDigit then
        rest.dropWhile Char.isDigit
      else
        p :: d :: rest
  | cs => cs

def time? (cs : List Char) : Option (List Char) := do
  let cs ← numberBelow? 24 cs
  let cs ← numberBelow? 60 (← char? ':' cs)
  let cs ← numberBelow? 60 (← char? ':' cs)
  return skipFraction cs

/- The rest of a time is its zone and nothing else. -/
def isZone : List Char → Bool
  | ['Z'] => true
  | [sign, a, b, ':', c, d] =>
      (sign == '+' || sign == '-') && [a, b, c, d].all Char.isDigit
        && (a.toNat - 48) * 10 + (b.toNat - 48) ≤ 24
        && (c.toNat - 48) * 10 + (d.toNat - 48) ≤ 60
  | _ => false

/-
  Whether a text is a date, a date and a time set apart by
  spaces, or a date and a time with a zone.
-/
def isTimestamp (cs : List Char) : Bool :=
  match date? cs with
  | none => false
  | some [] => true
  | some (c :: rest) =>
      if c = ' ' then
        time? (rest.dropWhile (· == ' ')) == some []
      else if c = 'T' ∨ c = 't' then
        ((time? rest).map isZone).getD false
      else
        false

end Timestamp

end Yaml

end Pep9
