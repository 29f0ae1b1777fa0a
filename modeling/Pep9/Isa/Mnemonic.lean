/-
  The instructions of the machine: their names, their forms
  and their operation codes. Every byte is the operation
  code of exactly one instruction with one addressing field.

  Key definitions: `Mnemonic`, `Form`, `Mnemonic.opcode`,
  `Mnemonic.ofName?`, `Mnemonic.ofOpcode`.
-/

namespace Pep9

namespace Isa

inductive Mnemonic where
  | stop
  | ret
  | rettr
  | movspa
  | movflga
  | movaflg
  | nota
  | notx
  | nega
  | negx
  | asla
  | aslx
  | asra
  | asrx
  | rola
  | rolx
  | rora
  | rorx
  | nop0
  | nop1
  | br
  | brle
  | brlt
  | breq
  | brne
  | brge
  | brgt
  | brv
  | brc
  | call
  | nop
  | deci
  | deco
  | hexo
  | stro
  | addsp
  | subsp
  | adda
  | addx
  | suba
  | subx
  | anda
  | andx
  | ora
  | orx
  | cpwa
  | cpwx
  | cpba
  | cpbx
  | ldwa
  | ldwx
  | ldba
  | ldbx
  | stwa
  | stwx
  | stba
  | stbx
deriving DecidableEq, Repr

/-
  The form of an instruction. A unary instruction has one
  byte. All others have a word behind their operation code;
  the code of a branch ends in one bit for the addressing
  mode, and that of the rest in three.
-/
inductive Form where
  | unary
  | branch
  | general
deriving DecidableEq, Repr

namespace Mnemonic

/- All instructions in the order of their operation codes. -/
def all : List Mnemonic :=
  [stop, ret, rettr, movspa, movflga, movaflg, nota, notx, nega, negx,
    asla, aslx, asra, asrx, rola, rolx, rora, rorx, br, brle, brlt, breq,
    brne, brge, brgt, brv, brc, call, nop0, nop1, nop, deci, deco, hexo,
    stro, addsp, subsp, adda, addx, suba, subx, anda, andx, ora, orx, cpwa,
    cpwx, cpba, cpbx, ldwa, ldwx, ldba, ldbx, stwa, stwx, stba, stbx]

def name : Mnemonic → String
  | stop => "STOP"
  | ret => "RET"
  | rettr => "RETTR"
  | movspa => "MOVSPA"
  | movflga => "MOVFLGA"
  | movaflg => "MOVAFLG"
  | nota => "NOTA"
  | notx => "NOTX"
  | nega => "NEGA"
  | negx => "NEGX"
  | asla => "ASLA"
  | aslx => "ASLX"
  | asra => "ASRA"
  | asrx => "ASRX"
  | rola => "ROLA"
  | rolx => "ROLX"
  | rora => "RORA"
  | rorx => "RORX"
  | nop0 => "NOP0"
  | nop1 => "NOP1"
  | br => "BR"
  | brle => "BRLE"
  | brlt => "BRLT"
  | breq => "BREQ"
  | brne => "BRNE"
  | brge => "BRGE"
  | brgt => "BRGT"
  | brv => "BRV"
  | brc => "BRC"
  | call => "CALL"
  | nop => "NOP"
  | deci => "DECI"
  | deco => "DECO"
  | hexo => "HEXO"
  | stro => "STRO"
  | addsp => "ADDSP"
  | subsp => "SUBSP"
  | adda => "ADDA"
  | addx => "ADDX"
  | suba => "SUBA"
  | subx => "SUBX"
  | anda => "ANDA"
  | andx => "ANDX"
  | ora => "ORA"
  | orx => "ORX"
  | cpwa => "CPWA"
  | cpwx => "CPWX"
  | cpba => "CPBA"
  | cpbx => "CPBX"
  | ldwa => "LDWA"
  | ldwx => "LDWX"
  | ldba => "LDBA"
  | ldbx => "LDBX"
  | stwa => "STWA"
  | stwx => "STWX"
  | stba => "STBA"
  | stbx => "STBX"

def form : Mnemonic → Form
  | stop => .unary
  | ret => .unary
  | rettr => .unary
  | movspa => .unary
  | movflga => .unary
  | movaflg => .unary
  | nota => .unary
  | notx => .unary
  | nega => .unary
  | negx => .unary
  | asla => .unary
  | aslx => .unary
  | asra => .unary
  | asrx => .unary
  | rola => .unary
  | rolx => .unary
  | rora => .unary
  | rorx => .unary
  | nop0 => .unary
  | nop1 => .unary
  | br => .branch
  | brle => .branch
  | brlt => .branch
  | breq => .branch
  | brne => .branch
  | brge => .branch
  | brgt => .branch
  | brv => .branch
  | brc => .branch
  | call => .branch
  | _ => .general

/- The operation code with an addressing field of zero. -/
def opcode : Mnemonic → UInt8
  | stop => 0x00
  | ret => 0x01
  | rettr => 0x02
  | movspa => 0x03
  | movflga => 0x04
  | movaflg => 0x05
  | nota => 0x06
  | notx => 0x07
  | nega => 0x08
  | negx => 0x09
  | asla => 0x0A
  | aslx => 0x0B
  | asra => 0x0C
  | asrx => 0x0D
  | rola => 0x0E
  | rolx => 0x0F
  | rora => 0x10
  | rorx => 0x11
  | nop0 => 0x26
  | nop1 => 0x27
  | br => 0x12
  | brle => 0x14
  | brlt => 0x16
  | breq => 0x18
  | brne => 0x1A
  | brge => 0x1C
  | brgt => 0x1E
  | brv => 0x20
  | brc => 0x22
  | call => 0x24
  | nop => 0x28
  | deci => 0x30
  | deco => 0x38
  | hexo => 0x40
  | stro => 0x48
  | addsp => 0x50
  | subsp => 0x58
  | adda => 0x60
  | addx => 0x68
  | suba => 0x70
  | subx => 0x78
  | anda => 0x80
  | andx => 0x88
  | ora => 0x90
  | orx => 0x98
  | cpwa => 0xA0
  | cpwx => 0xA8
  | cpba => 0xB0
  | cpbx => 0xB8
  | ldwa => 0xC0
  | ldwx => 0xC8
  | ldba => 0xD0
  | ldbx => 0xD8
  | stwa => 0xE0
  | stwx => 0xE8
  | stba => 0xF0
  | stbx => 0xF8

def ofName? (s : String) : Option Mnemonic :=
  all.find? fun m => m.name = s

def length (m : Mnemonic) : Nat :=
  match m.form with
  | .unary => 1
  | .branch => 3
  | .general => 3

/- The form of the instruction that a byte encodes. -/
def formOf (code : UInt8) : Form :=
  if code < 0x12 ∨ code = 0x26 ∨ code = 0x27 then
    .unary
  else if code < 0x28 then
    .branch
  else
    .general

/- A byte without its addressing field. -/
def withoutField (code : UInt8) : UInt8 :=
  match formOf code with
  | .unary => code
  | .branch => code &&& 0xFE
  | .general => code &&& 0xF8

/- The instruction that a byte encodes. -/
def ofOpcode (code : UInt8) : Mnemonic :=
  match withoutField code with
  | 0x00 => stop
  | 0x01 => ret
  | 0x02 => rettr
  | 0x03 => movspa
  | 0x04 => movflga
  | 0x05 => movaflg
  | 0x06 => nota
  | 0x07 => notx
  | 0x08 => nega
  | 0x09 => negx
  | 0x0A => asla
  | 0x0B => aslx
  | 0x0C => asra
  | 0x0D => asrx
  | 0x0E => rola
  | 0x0F => rolx
  | 0x10 => rora
  | 0x11 => rorx
  | 0x12 => br
  | 0x14 => brle
  | 0x16 => brlt
  | 0x18 => breq
  | 0x1A => brne
  | 0x1C => brge
  | 0x1E => brgt
  | 0x20 => brv
  | 0x22 => brc
  | 0x24 => call
  | 0x26 => nop0
  | 0x27 => nop1
  | 0x28 => nop
  | 0x30 => deci
  | 0x38 => deco
  | 0x40 => hexo
  | 0x48 => stro
  | 0x50 => addsp
  | 0x58 => subsp
  | 0x60 => adda
  | 0x68 => addx
  | 0x70 => suba
  | 0x78 => subx
  | 0x80 => anda
  | 0x88 => andx
  | 0x90 => ora
  | 0x98 => orx
  | 0xA0 => cpwa
  | 0xA8 => cpwx
  | 0xB0 => cpba
  | 0xB8 => cpbx
  | 0xC0 => ldwa
  | 0xC8 => ldwx
  | 0xD0 => ldba
  | 0xD8 => ldbx
  | 0xE0 => stwa
  | 0xE8 => stwx
  | 0xF0 => stba
  | _ => stbx

/-
  Instructions that write to their operand cannot have an
  immediate one.
-/
def writesOperand : Mnemonic → Bool
  | deci => true
  | stwa => true
  | stwx => true
  | stba => true
  | stbx => true
  | _ => false

end Mnemonic

end Isa

end Pep9
