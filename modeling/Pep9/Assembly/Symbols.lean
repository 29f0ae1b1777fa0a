import Pep9.Text.Column
import Pep9.Text.Hexadecimal

/-
  Symbols of an assembly text and their values.

  Key definitions: `Symbols`, `Symbols.lookup?`,
  `Symbols.set`, `Symbols.dump`.
-/

namespace Pep9

namespace Assembly

/- Symbols with their values; each symbol occurs once. -/
structure Symbols where
  entries : List (String × UInt16)
deriving DecidableEq, Repr

namespace Symbols

def empty : Symbols where
  entries := []

def lookup? (symbols : Symbols) (name : String) : Option UInt16 :=
  symbols.entries.lookup name

def setIn (name : String)
    (value : UInt16) : List (String × UInt16) → List (String × UInt16)
  | [] => [(name, value)]
  | (other, old) :: rest =>
      if other = name then
        (name, value) :: rest
      else
        (other, old) :: setIn name value rest

def set (symbols : Symbols) (name : String) (value : UInt16) : Symbols where
  entries := setIn name value symbols.entries

def size (symbols : Symbols) : Nat :=
  symbols.entries.length

def dumpEntry (entry : String × UInt16) : String :=
  Text.padRight 8 entry.1 ++ "  0x" ++ Text.upperHex 4 entry.2.toNat ++ "\n"

/- The symbols in the order of their names, one a line. -/
def dump (symbols : Symbols) : String :=
  String.join
    ((symbols.entries.mergeSort fun a b => a.1 ≤ b.1).map dumpEntry)

end Symbols

end Assembly

end Pep9
