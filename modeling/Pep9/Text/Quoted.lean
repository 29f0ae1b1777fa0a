import Pep9.Text.Hexadecimal
import Pep9.Text.Printable

/-
  Quoted texts and characters, as messages show them.

  Key definitions: `quoted`, `quotedChar`.
-/

namespace Pep9

namespace Text

/-
  One character inside quotes. The quote itself and the
  backslash are escaped, printable characters stand for
  themselves, and the rest is written as a short escape or
  by its code point.
-/
def escaped (quote : Char) (c : Char) : String :=
  if c = quote ∨ c = '\\' then
    String.ofList ['\\', c]
  else if isPrintable c then
    String.singleton c
  else
    match c.toNat with
    | 0x07 => "\\a"
    | 0x08 => "\\b"
    | 0x09 => "\\t"
    | 0x0a => "\\n"
    | 0x0b => "\\v"
    | 0x0c => "\\f"
    | 0x0d => "\\r"
    | n =>
        if n < 0x80 then
          "\\x" ++ lowerHex 2 n
        else if n < 0x10000 then
          "\\u" ++ lowerHex 4 n
        else
          "\\U" ++ lowerHex 8 n

def quoted (s : String) : String :=
  "\"" ++ String.join (s.toList.map (escaped '"')) ++ "\""

def quotedChar (c : Char) : String :=
  "'" ++ escaped '\'' c ++ "'"

end Text

end Pep9
