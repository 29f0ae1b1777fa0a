import Pep9.Yaml.Character
import Pep9.Yaml.Problem

/-
  A text that is read in blocks, and a position in it.

  Characters are asked for before they are looked at, and a
  block is decoded when one of its characters is asked for.
  So what is wrong with a block shows only when reading gets
  that far.

  Key definitions: `Mark`, `Source`, `Reading`, `need`,
  `skip`, `skipLine`.
-/

namespace Pep9

namespace Yaml

/- A position in a text. All parts count from zero. -/
structure Mark where
  index : Nat
  line : Nat
  column : Nat
deriving DecidableEq, Repr

namespace Mark

def start : Mark where
  index := 0
  line := 0
  column := 0

def next (m : Mark) : Mark where
  index := m.index + 1
  line := m.line
  column := m.column + 1

def newLine (m : Mark) (length : Nat) : Mark where
  index := m.index + length
  line := m.line + 1
  column := 0

end Mark

/-
  A text that is being read. `ready` holds the decoded
  characters from the position on, and `unread` counts them
  together with the ends of the text that were met; `coming`
  is not decoded yet. `marked` tells whether `ready` started
  with a byte order mark when characters were last asked for
  in vain. `breaks` counts the line breaks since the last
  text, `noted` is an error after which reading went on, and
  `size` bounds the number of characters.
-/
structure Source where
  mark : Mark
  ready : List Char
  unread : Nat
  coming : List Char
  marked : Bool
  breaks : Nat
  noted : Option Error
  size : Nat

namespace Source

/- The source before anything is decoded. -/
def ofList (cs : List Char) : Source where
  mark := .start
  ready := []
  unread := 0
  coming := cs
  marked := false
  breaks := 0
  noted := none
  size := cs.length + 1

def afterBreak (s : Source) (length : Nat) : Source :=
  { s with
    mark := s.mark.newLine length
    ready := s.ready.drop length
    unread := s.unread - length
    breaks := s.breaks + 1 }

end Source

/- Reading a source. The source is kept also after an error. -/
abbrev Reading :=
  EStateM Error Source

def blockSize : Nat :=
  512

/- Splits off the characters that fit into some bytes. -/
def takeBytes (n : Nat) : List Char → List Char × List Char
  | [] => ([], [])
  | c :: rest =>
      if c.utf8Size ≤ n then
        let (block, later) := takeBytes (n - c.utf8Size) rest
        (c :: block, later)
      else
        ([], c :: rest)

def startsMarked (cs : List Char) : Bool :=
  cs.head? == some byteOrderMark

/- Decodes a block, up to a character that is not allowed. -/
def load (bytes : Nat) : Reading Unit := do
  let s ← get
  let (block, later) := takeBytes bytes s.coming
  let (good, bad) := block.span isAllowed
  let ready := s.ready ++ good
  set
    { s with
      ready := ready
      unread := s.unread + good.length
      coming := bad ++ later
      marked := startsMarked ready }
  if bad.isEmpty then
    return ()
  else
    throw (.unreadable s.noted)

/-
  Decodes blocks until `count` characters are at hand or the
  end of the text is met. A block adds a character at least,
  so that `count` rounds suffice.
-/
def refill (count : Nat) : Nat → Reading Unit
  | 0 => return ()
  | rounds + 1 => do
      let s ← get
      if s.unread < count then
        if s.coming.isEmpty then
          set
            { s with
              unread := s.unread + 1
              marked := startsMarked s.ready }
        else
          load blockSize
          refill count rounds
      else
        return ()

def need (count : Nat) : Reading Unit :=
  refill count count

/-
  Asks for some characters, and tells whether there was no
  error. An error is noted.
-/
def reaches (count : Nat) : Reading Bool :=
  tryCatch
    (do
      need count
      return true)
    fun e => do
      modify fun s => { s with noted := some e }
      return false

/-
  Decodes the first block. A byte order mark at the start of
  the text belongs to the block and not to the document.
-/
def loadFirst : Reading Unit := do
  let s ← get
  match s.coming with
  | [] => return ()
  | c :: rest =>
      if c = byteOrderMark then
        set { s with coming := rest }
        load (blockSize - c.utf8Size)
      else
        load blockSize

def current : Reading (Option Char) := do
  return (← get).ready.head?

/- Goes to the next character. -/
def skip : Reading Unit :=
  modify fun s =>
    { s with
      mark := s.mark.next
      ready := s.ready.tail
      unread := s.unread - 1
      breaks := if s.ready.head?.any isBlank then s.breaks else 0 }

def skipMany : Nat → Reading Unit
  | 0 => return ()
  | n + 1 => do
      skip
      skipMany n

/-
  Goes to the next line from a line break. A carriage return
  and a line feed are one break.
-/
def skipLine : Reading Unit :=
  modify fun s =>
    match s.ready with
    | [] => s
    | c :: rest =>
        if c = '\r' ∧ rest.head? = some '\n' then
          s.afterBreak 2
        else if isBreak c then
          s.afterBreak 1
        else
          s

/- Fails here, in a construct that starts on a line. -/
def failIn {α : Type} (context : Nat) (problem : Problem) : Reading α := do
  throw ⟨.characters, context, (← get).mark.line, problem⟩

def isGap (c : Char) : Bool :=
  isBlank c || isBreak c

def endsWord : List Char → Bool
  | [] => true
  | c :: _ => isGap c

/- Whether a line starts with a mark between documents. -/
def startsWithIndicator (c : Char) (cs : List Char) : Bool :=
  cs.take 3 == [c, c, c] && endsWord (cs.drop 3)

/- Whether a source is before a mark between documents. -/
def Source.atIndicator (s : Source) : Bool :=
  s.mark.column == 0
    && (startsWithIndicator '-' s.ready || startsWithIndicator '.' s.ready)

end Yaml

end Pep9
