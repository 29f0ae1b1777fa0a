import Pep9.Yaml.Comment
import Pep9.Yaml.Scalar
import Pep9.Yaml.Token
import Std.Data.HashMap

/-
  Tokens fetched from a text, as they are asked for.

  A scalar or a bracket becomes a key only when the colon
  after it is seen; the token for the key, and with it the
  start of a block, is then put in front of it. So a token is
  delivered when two more are known and it can no longer
  become a key.

  Key definitions: `TokenQueue`, `Fetching`, `Fetching.fetch`,
  `Fetching.peek`, `Fetching.take`.
-/

namespace Pep9

namespace Yaml

/-
  A token that may turn out to be a key, as long as it is
  `possible`: its number, its start, and whether there must be
  a key.
-/
structure PossibleKey where
  possible : Bool
  required : Bool
  number : Nat
  mark : Mark
deriving DecidableEq, Repr

/-
  The tokens of a source. `waiting` holds the tokens that are
  fetched and not taken, and `taken` counts the others;
  `last` and `former` are the last two that were added. The
  first that waits is `known` when it may be delivered.
  `indent` is the column of the block around, and `outer`
  those of the blocks around it. `keys` has a possible key for
  each bracket around, the innermost last, and `levels` tells
  for the number of a token which of them it is. `comments`
  are those that no token has taken yet, and `heading` is the
  text of those that head what follows.
-/
structure TokenQueue where
  source : Source
  waiting : List Token
  taken : Nat
  last : Option Token
  former : Option Token
  known : Bool
  indent : Int
  outer : Array Int
  keys : Array PossibleKey
  levels : Std.HashMap Nat Nat
  keyAllowed : Bool
  comments : List Comment
  heading : List Char

namespace TokenQueue

/- No key, outside of all brackets. -/
def noKey : PossibleKey where
  possible := false
  required := false
  number := 0
  mark := .start

def start (source : Source) : TokenQueue where
  source := source
  waiting := [⟨.streamStart, .start⟩]
  taken := 0
  last := some ⟨.streamStart, .start⟩
  former := none
  known := false
  indent := -1
  outer := #[]
  keys := #[noKey]
  levels := ∅
  keyAllowed := true
  comments := []
  heading := []

def inFlow (s : TokenQueue) : Bool :=
  s.keys.size > 1

def key (s : TokenQueue) : PossibleKey :=
  s.keys.back?.getD noKey

def nextNumber (s : TokenQueue) : Nat :=
  s.taken + s.waiting.length

def mark (s : TokenQueue) : Mark :=
  s.source.mark

def push (s : TokenQueue) (kind : TokenKind) (mark : Mark) : TokenQueue :=
  let token : Token := ⟨kind, mark⟩
  { s with
    waiting := s.waiting ++ [token]
    last := some token
    former := s.last }

/-
  Adds a token before the one with a given number. When that
  one is taken already, or not there yet, it goes to the end.
-/
def insert (s : TokenQueue) (number : Nat) (kind : TokenKind)
    (mark : Mark) : TokenQueue :=
  if s.taken ≤ number ∧ number < s.nextNumber then
    { s with waiting := s.waiting.insertIdx (number - s.taken) ⟨kind, mark⟩ }
  else
    s.push kind mark

def setKey (s : TokenQueue) (key : PossibleKey) : TokenQueue :=
  { s with keys := s.keys.pop.push key }

/- Whether a possible key is out of reach of a colon here. -/
def isLost (s : TokenQueue) (key : PossibleKey) : Bool :=
  key.mark.line < s.mark.line || key.mark.index + 1024 < s.mark.index

end TokenQueue

/- Fetching tokens. The queue is kept also after an error. -/
abbrev Fetching :=
  EStateM Error TokenQueue

namespace Fetching

def onSource {α : Type} (read : Reading α) : Fetching α :=
  fun s =>
    match read s.source with
    | .ok a source => .ok a { s with source := source }
    | .error e source => .error e { s with source := source }

def fail {α : Type} (context : Nat) (problem : Problem) : Fetching α :=
  onSource (failIn context problem)

/- How deep brackets and blocks may be nested. -/
def depthLimit : Nat :=
  10000

/-
  Whether the possible key of a bracket is still one: the
  colon comes on its line and after at most 1024 characters. A
  key that is required must not be lost.
-/
def isOpen (level : Nat) : Fetching Bool := do
  let s ← get
  match s.keys[level]? with
  | none => return false
  | some key =>
      if !key.possible then
        return false
      else if s.isLost key then
        if key.required then
          fail key.mark.line .missingColon
        else
          set { s with
            keys := s.keys.modify level fun k => { k with possible := false } }
          return false
      else
        return true

def dropKey : Fetching Unit := do
  let s ← get
  let key := s.key
  if key.possible then
    if key.required then
      fail key.mark.line .missingColon
    else
      set { s.setKey { key with possible := false } with
        levels := s.levels.erase key.number }
  else
    return ()

/- Notes that the next token may be a key. -/
def saveKey : Fetching Unit := do
  if (← get).keyAllowed then
    dropKey
    let s ← get
    let number := s.nextNumber
    let required := !s.inFlow && s.indent == s.mark.column
    set { s.setKey ⟨true, required, number, s.mark⟩ with
      levels := s.levels.insert number (s.keys.size - 1) }
  else
    return ()

def openBracket : Fetching Unit := do
  modify fun s =>
    { s with keys := s.keys.push ⟨false, false, s.nextNumber, s.mark⟩ }
  let s ← get
  if s.keys.size > depthLimit + 1 then
    fail s.mark.line .tooDeep
  else
    return ()

def closeBracket : Fetching Unit :=
  modify fun s =>
    if s.inFlow then
      { s with
        levels := s.levels.erase s.key.number
        keys := s.keys.pop }
    else
      s

------------------------------------------------------------
-- Blocks
------------------------------------------------------------

/-
  Starts a block at a column that is deeper than the one
  around, before the token with a given number.
-/
def openBlock (column : Nat) (number : Nat) (kind : TokenKind)
    (mark : Mark) : Fetching Unit := do
  let s ← get
  if s.inFlow || column ≤ s.indent then
    return ()
  else
    set { s with indent := column, outer := s.outer.push s.indent }
    if s.outer.size < depthLimit then
      modify fun s => s.insert number kind mark
    else
      fail s.key.mark.line .tooDeep

/- Ends blocks, as many as there are, deeper than a column. -/
def closeFrom (column : Int) (mark : Mark) : Nat → TokenQueue → TokenQueue
  | 0, s => s
  | count + 1, s =>
      if s.indent > column then
        closeFrom column mark count
          { s.push .blockEnd mark with
            indent := s.outer.back?.getD (-1)
            outer := s.outer.pop }
      else
        s

/-
  Ends the blocks that are deeper than a column. They end
  before a given position.
-/
def closeBlocks (column : Int) (mark : Mark) : Fetching Unit :=
  let last := { mark with index := mark.index - 1 }
  modify fun s =>
    if s.inFlow then s else closeFrom column last s.outer.size s

/- Ends all blocks and gives up the possible key. -/
def closeAll : Fetching Unit := do
  closeBlocks (-1) (← get).mark
  dropKey

/-
  Skips blanks. Tabs count as blanks in brackets, and where no
  key may start.
-/
def skipBlanks (tabs : Bool) : Nat → Reading Unit
  | 0 => return ()
  | fuel + 1 => do
      match ← current with
      | none => return ()
      | some c =>
          if c = ' ' || (tabs && c = '\t') then
            skip
            need 1
            skipBlanks tabs fuel
          else
            return ()

/-
  A comment behind the key of a sequence heads its first
  entry.
-/
def headEntry : Fetching Unit :=
  modify fun s =>
    let first :=
      s.last.any (fun t => t.kind = .blockEntry)
        && s.former.any (fun t => t.kind = .blockSequenceStart)
    match s.comments.getLast? with
    | some ⟨owner, line, .line text⟩ =>
        if first && !s.source.ready.head?.any isBreak then
          let index := if line + 1 = s.mark.line then s.mark.index else owner
          { s with
            comments :=
              s.comments.dropLast ++ [⟨index, line, .head text⟩] }
        else
          s
    | _ => s

/- The token that owns the comments after it. -/
def commentOwner (s : TokenQueue) : Option Token :=
  if s.last.any fun t => t.kind = .flowEntry then
    s.former.or s.last
  else
    s.last

/-
  Reads comments on their own lines, in a gap that starts on
  a line.
-/
def readComments (gapLine : Nat) : Fetching Unit := do
  let s ← get
  let token := commentOwner s
  let below := if s.source.breaks = 0 ∧ s.mark.column > 1 then 1 else 0
  let footLine : Int :=
    if gapLine = 0 then
      -1
    else
      (s.mark.line : Int) - s.source.breaks + 1 + below
  let place : CommentPlace :=
    { indent := s.indent.toNat
      flow := s.inFlow
      valueDue := token.any fun t => t.kind = .value
      footLine := footLine }
  let found ←
    onSource (scanComments place ((token.map fun t => t.mark.index).getD 0))
  modify fun s => { s with comments := s.comments ++ found }

/-
  Skips blanks, breaks and comments. A line loses its first
  character while the source is marked. Outside of brackets a
  key may start after a line break.
-/
def skipGap (gapLine : Nat) : Nat → Fetching Unit
  | 0 => return ()
  | fuel + 1 => do
      onSource (need 1)
      let s ← get
      if s.mark.column = 0 && s.source.marked then
        onSource skip
      onSource (need 1)
      onSource (skipBlanks (s.inFlow || !s.keyAllowed) s.source.size)
      headEntry
      if (← onSource current) == some '#' then
        readComments gapLine
      if (← onSource current).any isBreak then
        onSource (need 2)
        onSource skipLine
        modify fun s => { s with keyAllowed := s.keyAllowed || !s.inFlow }
        skipGap gapLine fuel
      else
        return ()

/- Adds a token of some characters that starts here. -/
def pushToken (kind : TokenKind) (length : Nat) : Fetching Unit := do
  let start := (← get).mark
  onSource (skipMany length)
  modify fun s => s.push kind start

/- Tells whether a key may start next. -/
def allowKey (allowed : Bool) : Fetching Unit :=
  modify fun s => { s with keyAllowed := allowed }

/- The end of the text, which is on a line of its own. -/
def fetchEnd : Fetching Unit := do
  modify fun s =>
    let m := s.mark
    let line := if m.column = 0 then m.line else m.line + 1
    { s with source := { s.source with mark := ⟨m.index, line, 0⟩ } }
  closeAll
  allowKey false
  pushToken .streamEnd 0

def fetchIndicator (kind : TokenKind) : Fetching Unit := do
  closeAll
  allowKey false
  pushToken kind 3

def fetchOpen (kind : TokenKind) : Fetching Unit := do
  saveKey
  openBracket
  allowKey true
  pushToken kind 1

def fetchClose (kind : TokenKind) : Fetching Unit := do
  dropKey
  closeBracket
  allowKey false
  pushToken kind 1

def fetchComma : Fetching Unit := do
  dropKey
  allowKey true
  pushToken .flowEntry 1

/-
  Starts a block here for a token that needs one. Where no key
  may start there is a problem.
-/
def startBlock (kind : TokenKind) (problem : Problem) : Fetching Unit := do
  let s ← get
  if s.inFlow then
    return ()
  else if s.keyAllowed then
    openBlock s.mark.column s.nextNumber kind s.mark
  else
    fail s.mark.line problem

/- A dash before an entry of a block. -/
def fetchEntry : Fetching Unit := do
  startBlock .blockSequenceStart .strayEntry
  dropKey
  allowKey true
  pushToken .blockEntry 1

/- A question mark before a key. -/
def fetchKey : Fetching Unit := do
  startBlock .blockMappingStart .strayKey
  dropKey
  allowKey (!(← get).inFlow)
  pushToken .key 1

/- A colon, after a key or alone. -/
def fetchValue : Fetching Unit := do
  if ← isOpen ((← get).keys.size - 1) then
    let key := (← get).key
    modify fun s => s.insert key.number .key key.mark
    openBlock key.mark.column key.number .blockMappingStart key.mark
    modify fun s =>
      { s.setKey { key with possible := false } with
        levels := s.levels.erase key.number }
    allowKey false
  else
    startBlock .blockMappingStart .strayValue
    allowKey (!(← get).inFlow)
  pushToken .value 1

def fetchScalar (plain : Bool) (read : Reading Scanned) : Fetching Unit := do
  saveKey
  let start := (← get).mark
  allowKey false
  let scanned ← onSource read
  allowKey scanned.crossedLine
  modify fun s => s.push (.scalar plain scanned.text) start

/- Characters that do not start a plain scalar. -/
def isIndicator (c : Char) : Bool :=
  ['-', '?', ':', ',', '[', ']', '\x7b', '\x7d', '#', '&', '*', '!', '|',
    '>', '\'', '"', '%', '@', '\x60'].contains c

def startsPlain (flow : Bool) (c : Char) (rest : List Char) : Bool :=
  !(isIndicator c || isBlank c)
    || (c == '-' && !(rest.head?.any isBlank))
    || (!flow && (c == '?' || c == ':') && !endsWord rest)

/- The token that starts with a character. -/
def fetchAt (c : Char) (rest : List Char) : Fetching Unit := do
  let s ← get
  if c = '[' then
    fetchOpen .flowSequenceStart
  else if c = '\x7b' then
    fetchOpen .flowMappingStart
  else if c = ']' then
    fetchClose .flowSequenceEnd
  else if c = '\x7d' then
    fetchClose .flowMappingEnd
  else if c = ',' then
    fetchComma
  else if c = '-' && endsWord rest then
    fetchEntry
  else if c = '?' && (s.inFlow || endsWord rest) then
    fetchKey
  else if c = ':' && (s.inFlow || endsWord rest) then
    fetchValue
  else if c = '\'' || c = '"' then
    fetchScalar false (scanQuoted c)
  else if startsPlain s.inFlow c rest then
    fetchScalar true (scanPlain s.inFlow (s.indent + 1).toNat)
  else
    fail s.mark.line .strayCharacter

/-
  The index from which on tokens take a comment behind the
  token that starts with a character. A colon or a comma
  leaves it to the token before.
-/
def lineCommentOwner (s : TokenQueue) (c : Char) : Nat :=
  let behind := if s.inFlow then c == ',' else c == ':'
  match s.last with
  | some token => if behind then token.mark.index else s.mark.index
  | none => s.mark.index

/- Reads a comment behind a token, unless it is a dash. -/
def readLineComment (owner : Nat) : Fetching Unit := do
  if (← get).last.any fun t => t.kind = .blockEntry then
    return ()
  else
    let found ← onSource (scanLineComment owner)
    modify fun s => { s with comments := s.comments ++ found.toList }

/- Skips a gap, ends blocks and fetches the next token. -/
def fetch : Fetching Unit := do
  onSource (need 1)
  let before ← get
  skipGap before.mark.line (before.source.size + 2)
  closeBlocks (← get).mark.column before.mark
  onSource (need 4)
  let s ← get
  match s.source.ready with
  | [] => fetchEnd
  | c :: rest =>
      if s.source.atIndicator then
        fetchIndicator (if c = '-' then .documentStart else .documentEnd)
      else
        fetchAt c rest
        readLineComment (lineCommentOwner s c)

------------------------------------------------------------
-- Delivering Tokens
------------------------------------------------------------

/- Whether the first token of the queue must wait for more. -/
def mustWait : Fetching Bool := do
  let s ← get
  match s.waiting with
  | _ :: _ :: _ :: _ =>
      match s.levels[s.taken]? with
      | none => return false
      | some level => isOpen level
  | _ => return true

/-
  Fetches tokens until the first one may be delivered. Each of
  them takes a character or is the end of the text.
-/
def fetchEnough : Nat → Fetching Unit
  | 0 => return ()
  | fuel + 1 => do
      if ← mustWait then
        fetch
        fetchEnough fuel
      else
        return ()

/-
  Takes the comments that a token owns. Those that head what
  follows are left by the end of a block.
-/
def claimComments
    (token : Token) : List Comment → List Char → List Comment × List Char
  | [], heading => ([], heading)
  | comment :: rest, heading =>
      if token.mark.index < comment.owner then
        (comment :: rest, heading)
      else
        match comment.kind with
        | .head text =>
            if token.kind = .blockEnd then
              (comment :: rest, heading)
            else if heading.isEmpty then
              claimComments token rest text
            else
              claimComments token rest (heading ++ '\n' :: text)
        | _ => claimComments token rest heading

def peek : Fetching Token := do
  let s ← get
  if !s.known then
    fetchEnough (s.source.size + 4)
    modify fun s => { s with known := true }
  let s ← get
  let token := s.waiting.head?.getD ⟨.streamEnd, s.mark⟩
  let (comments, heading) := claimComments token s.comments s.heading
  set { s with comments := comments, heading := heading }
  return token

def take : Fetching Unit :=
  modify fun s =>
    { s with
      waiting := s.waiting.tail
      taken := s.taken + 1
      known := false }

end Fetching

end Yaml

end Pep9
