/-
  Addressing modes of the machine.

  Key definitions: `Addressing`, `Addressing.field`,
  `Addressing.ofField`, `Addressing.ofSuffix?`.
-/

namespace Pep9

namespace Isa

inductive Addressing where
  | immediate
  | direct
  | indirect
  | stackRelative
  | stackDeferred
  | indexed
  | stackIndexed
  | stackDeferredIndexed
deriving DecidableEq, Repr

namespace Addressing

/- The three bits that encode a mode. -/
def field : Addressing → UInt8
  | immediate => 0
  | direct => 1
  | indirect => 2
  | stackRelative => 3
  | stackDeferred => 4
  | indexed => 5
  | stackIndexed => 6
  | stackDeferredIndexed => 7

/- The mode that the last three bits of a byte encode. -/
def ofField (code : UInt8) : Addressing :=
  match code &&& 7 with
  | 0 => immediate
  | 1 => direct
  | 2 => indirect
  | 3 => stackRelative
  | 4 => stackDeferred
  | 5 => indexed
  | 6 => stackIndexed
  | _ => stackDeferredIndexed

def suffix : Addressing → String
  | immediate => "i"
  | direct => "d"
  | indirect => "n"
  | stackRelative => "s"
  | stackDeferred => "sf"
  | indexed => "x"
  | stackIndexed => "sx"
  | stackDeferredIndexed => "sfx"

def all : List Addressing :=
  [immediate, direct, indirect, stackRelative, stackDeferred, indexed,
    stackIndexed, stackDeferredIndexed]

/- The mode with a given spelling. -/
def ofSuffix? (s : String) : Option Addressing :=
  all.find? fun mode => mode.suffix = s

end Addressing

end Isa

end Pep9
