/-
  Columns of a table in plain text. Widths count
  characters.

  Key definitions: `spaces`, `padRight`.
-/

namespace Pep9

namespace Text

def spaces (n : Nat) : String :=
  String.ofList (List.replicate n ' ')

/-
  The text, filled up with spaces on the right to `width`
  characters. A longer text is left as it is.
-/
def padRight (width : Nat) (s : String) : String :=
  s ++ spaces (width - s.length)

end Text

end Pep9
