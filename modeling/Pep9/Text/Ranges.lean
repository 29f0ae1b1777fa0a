/-
  Sets of code points given as sorted lists of half-open
  ranges.

  Key definitions: `rangeEnds`, `inRanges`.
-/

namespace Pep9

namespace Text

/-
  The ends of ranges, each written as its distance from the
  one before.
-/
def rangeEnds (last : Nat) : List Nat → List Nat
  | [] => []
  | distance :: rest => (last + distance) :: rangeEnds (last + distance) rest

/-
  Membership in a set of numbers that is written as the
  ends of its ranges in increasing order: the first number
  of a range, then the first number after it.
-/
def inRanges : List Nat → Nat → Bool
  | first :: stop :: rest, n =>
      if n < first then
        false
      else
        n < stop || inRanges rest n
  | _, _ => false

end Text

end Pep9
