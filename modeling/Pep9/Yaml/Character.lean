/-
  Characters as YAML tells them apart.

  Key definitions: `isBreak`, `isBlank`, `isAllowed`,
  `isShown`.
-/

namespace Pep9

namespace Yaml

def isBreak (c : Char) : Bool :=
  c == '\n' || c == '\r' || c == '\u0085' || c == '\u2028' || c == '\u2029'

def isBlank (c : Char) : Bool :=
  c == ' ' || c == '\t'

/- Characters that may stand in a document. -/
def isAllowed (c : Char) : Bool :=
  let n := c.toNat
  n == 0x09 || n == 0x0a || n == 0x0d || (0x20 ≤ n && n ≤ 0x7e) || n == 0x85
    || (0xa0 ≤ n && n ≤ 0xfffd) || 0x10000 ≤ n

/- The mark of byte order, which may start a text. -/
def byteOrderMark : Char :=
  '\uFEFF'

/-
  Characters that are written without an escape: line feeds
  and the printable characters of the basic plane.
-/
def isShown (c : Char) : Bool :=
  let n := c.toNat
  n == 0x0a || (0x20 ≤ n && n ≤ 0x7e)
    || (0xa0 ≤ n && n ≤ 0xfffd && n != 0xfeff)

end Yaml

end Pep9
