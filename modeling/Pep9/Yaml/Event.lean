import Pep9.Yaml.TokenQueue

/-
  The parts of a document in the order of the text: scalars,
  and the starts and ends of collections.

  Key definitions: `Event`, `Expected`, `Walker`, `Walk.next`.
-/

namespace Pep9

namespace Yaml

/- Parts of a text. Lines count from one. -/
inductive Event where
  | documentStart
  | documentEnd
  | streamEnd
  | scalar (line : Nat) (plain : Bool) (text : String)
  | sequenceStart (line : Nat)
  | mappingStart (line : Nat)
  | collectionEnd
deriving DecidableEq, Repr

/-
  What is expected next. In blocks there are entries, keys and
  values, without a block of their own `looseEntry`; in
  brackets there are items, and pairs of a key and a value as
  items; in braces there are fields.
-/
inductive Expected where
  | document
  | content
  | documentEnd
  | root
  | firstEntry
  | entry
  | looseEntry
  | firstKey
  | key
  | value
  | firstItem
  | item
  | pairKey
  | pairValue
  | pairEnd
  | firstField
  | field
  | fieldValue
  | missingValue
deriving DecidableEq, Repr

/-
  The state of walking through a document. `later` is what is
  expected after the present part, and `starts` are the lines
  on which the collections around start.
-/
structure Walker where
  tokens : TokenQueue
  expected : Expected
  later : List Expected
  starts : List Nat

abbrev Walk :=
  EStateM Error Walker

namespace Walk

def onTokens {α : Type} (fetching : Fetching α) : Walk α :=
  fun w =>
    match fetching w.tokens with
    | .ok a tokens => .ok a { w with tokens := tokens }
    | .error e tokens => .error e { w with tokens := tokens }

def peek : Walk Token :=
  onTokens Fetching.peek

def take : Walk Unit :=
  onTokens Fetching.take

/- Forgets the comments that head the present part. -/
def dropHeading : Walk Unit :=
  onTokens (modify fun s => { s with heading := [] })

/- The error of a token in a construct that starts on a line. -/
def unexpected {α : Type} (context : Nat) (token : Token)
    (problem : Problem) : Walk α :=
  throw ⟨.tokens, context, token.mark.line, problem⟩

def expect (expected : Expected) : Walk Unit :=
  modify fun w => { w with expected := expected }

/- Puts off something that is expected. -/
def expectLater (expected : Expected) : Walk Unit :=
  modify fun w => { w with later := expected :: w.later }

/- Goes on with what was put off last. -/
def resume : Walk Unit :=
  modify fun w =>
    { w with
      expected := w.later.headD .documentEnd
      later := w.later.tail }

/- Goes into a collection whose first token is next. -/
def enter : Walk Unit := do
  let token ← peek
  modify fun w => { w with starts := token.mark.line :: w.starts }
  take

/- The line on which the collection around starts. -/
def contextLine : Walk Nat := do
  return (← get).starts.headD 0

/- Goes out of a collection whose last token is next. -/
def leave : Walk Event := do
  resume
  modify fun w => { w with starts := w.starts.tail }
  take
  return .collectionEnd

def nothing (token : Token) (expected : Expected) : Walk Event := do
  expect expected
  return .scalar (token.mark.line + 1) true ""

/-
  A scalar, or the start of a collection. Blocks start where
  `block` allows it, and entries without a block of their own
  where `loose` does.
-/
def node (block : Bool) (loose : Bool) : Walk Event := do
  let token ← peek
  let line := token.mark.line + 1
  match token.kind with
  | .scalar plain text =>
      resume
      dropHeading
      take
      return .scalar line plain text
  | .flowSequenceStart =>
      expect .firstItem
      dropHeading
      return .sequenceStart line
  | .flowMappingStart =>
      expect .firstField
      dropHeading
      return .mappingStart line
  | .blockSequenceStart =>
      if block then
        expect .firstEntry
        return .sequenceStart line
      else
        unexpected token.mark.line token .missingContent
  | .blockMappingStart =>
      if block then
        expect .firstKey
        return .mappingStart line
      else
        unexpected token.mark.line token .missingContent
  | .blockEntry =>
      if loose then
        expect .looseEntry
        return .sequenceStart line
      else
        unexpected token.mark.line token .missingContent
  | _ => unexpected token.mark.line token .missingContent

def nodeBefore (expected : Expected) (block : Bool)
    (loose : Bool) : Walk Event := do
  expectLater expected
  node block loose

/-
  Leaves the comments that head an entry, `length` characters
  of them, to a block that starts in it. When the token after
  a dash cannot be read it is tried again by the caller, and
  the error is noted.
-/
def splitHeading (length : Nat) : Walk Unit := do
  if length = 0 then
    return ()
  else
    tryCatch
      (do
        if (← peek).startsBlock then
          onTokens (modify fun s =>
            { s with heading := s.heading.drop (length + 1) }))
      fun e =>
        onTokens (modify fun s =>
          { s with source := { s.source with noted := some e } })

/- Goes behind the dash of an entry. -/
def takeDash : Walk Unit := do
  let length := (← get).tokens.heading.length
  take
  splitHeading length

/- An entry of a block, or the end of the block. -/
def blockEntry : Walk Event := do
  let token ← peek
  match token.kind with
  | .blockEntry =>
      takeDash
      let next ← peek
      if [.blockEntry, .blockEnd].contains next.kind then
        nothing token .entry
      else
        nodeBefore .entry true false
  | .blockEnd => leave
  | _ => unexpected (← contextLine) token .missingDash

/- An entry without a block of its own, or what follows them. -/
def looseEntry : Walk Event := do
  let token ← peek
  match token.kind with
  | .blockEntry =>
      takeDash
      let next ← peek
      if [.blockEntry, .key, .value, .blockEnd].contains next.kind then
        nothing token .looseEntry
      else
        nodeBefore .looseEntry true false
  | _ =>
      resume
      return .collectionEnd

/- Tokens that leave a key or a value in a block out. -/
def endsField (kind : TokenKind) : Bool :=
  [.key, .value, .blockEnd].contains kind

def blockKey : Walk Event := do
  let token ← peek
  match token.kind with
  | .key =>
      take
      let next ← peek
      if endsField next.kind then
        nothing token .value
      else
        nodeBefore .value true true
  | .blockEnd =>
      dropHeading
      leave
  | _ => unexpected (← contextLine) token .missingKey

def blockValue : Walk Event := do
  let token ← peek
  if token.kind = .value then
    take
    let next ← peek
    if endsField next.kind then
      nothing token .key
    else
      nodeBefore .key true true
  else
    nothing token .key

------------------------------------------------------------
-- Brackets
------------------------------------------------------------

def leaveBracket : Walk Event := do
  dropHeading
  leave

/- An item after its comma, if there is one. -/
def itemAt (token : Token) : Walk Event := do
  match token.kind with
  | .flowSequenceEnd => leaveBracket
  | .key =>
      expect .pairKey
      take
      return .mappingStart (token.mark.line + 1)
  | _ => nodeBefore .item false false

/- An item of a bracket, or its end. -/
def flowItem (first : Bool) : Walk Event := do
  let token ← peek
  if first || token.kind = .flowSequenceEnd then
    itemAt token
  else if token.kind = .flowEntry then
    take
    itemAt (← peek)
  else
    unexpected (← contextLine) token .unclosedSequence

def pairKey : Walk Event := do
  let token ← peek
  if [.value, .flowEntry, .flowSequenceEnd].contains token.kind then
    take
    nothing token .pairValue
  else
    nodeBefore .pairValue false false

def pairValue : Walk Event := do
  let token ← peek
  if token.kind = .value then
    take
    let next ← peek
    if [.flowEntry, .flowSequenceEnd].contains next.kind then
      nothing token .pairEnd
    else
      nodeBefore .pairEnd false false
  else
    nothing token .pairEnd

def pairEnd : Walk Event := do
  let _ ← peek
  expect .item
  return .collectionEnd

/- A field after its comma, if there is one. -/
def fieldAt (token : Token) : Walk Event := do
  match token.kind with
  | .flowMappingEnd => leaveBracket
  | .key =>
      take
      let next ← peek
      if [.value, .flowEntry, .flowMappingEnd].contains next.kind then
        nothing next .fieldValue
      else
        nodeBefore .fieldValue false false
  | _ => nodeBefore .missingValue false false

/- A field of a brace, or its end. -/
def flowField (first : Bool) : Walk Event := do
  let token ← peek
  if first || token.kind = .flowMappingEnd then
    fieldAt token
  else if token.kind = .flowEntry then
    take
    fieldAt (← peek)
  else
    unexpected (← contextLine) token .unclosedMapping

def fieldValue : Walk Event := do
  let token ← peek
  if token.kind = .value then
    take
    let next ← peek
    if [.flowEntry, .flowMappingEnd].contains next.kind then
      nothing next .field
    else
      nodeBefore .field false false
  else
    nothing token .field

/-
  The text after the last empty line, given the characters of
  the whole text with the last first.
-/
def afterEmptyLine (after : List Char) : List Char → Option (List Char)
  | '\n' :: '\n' :: _ => some after
  | c :: rest => afterEmptyLine (c :: after) rest
  | [] => none

/-
  The comments that head the first part of a document: those
  after the last empty line, which may be the last line.
-/
def bodyHeading (heading : List Char) : List Char :=
  match heading.reverse with
  | '\n' :: _ => []
  | reversed => (afterEmptyLine [] reversed).getD heading

/- The start of the first document, or the end of the text. -/
def document : Walk Event := do
  let token ← peek
  match token.kind with
  | .streamEnd => return .streamEnd
  | .documentStart =>
      expectLater .documentEnd
      expect .content
      take
      return .documentStart
  | _ =>
      expectLater .documentEnd
      expect .root
      onTokens (modify fun s => { s with heading := bodyHeading s.heading })
      return .documentStart

/- The content of a document, which may be empty. -/
def content : Walk Event := do
  let token ← peek
  if [.documentStart, .documentEnd, .streamEnd].contains token.kind then
    resume
    return .scalar (token.mark.line + 1) true ""
  else
    node true false

def documentEnd : Walk Event := do
  let _ ← peek
  return .documentEnd

def step : Walk Event := do
  match (← get).expected with
  | .document => document
  | .content => content
  | .documentEnd => documentEnd
  | .root => node true false
  | .firstEntry =>
      enter
      blockEntry
  | .entry => blockEntry
  | .looseEntry => looseEntry
  | .firstKey =>
      enter
      blockKey
  | .key => blockKey
  | .value => blockValue
  | .firstItem =>
      enter
      flowItem true
  | .item => flowItem false
  | .pairKey => pairKey
  | .pairValue => pairValue
  | .pairEnd => pairEnd
  | .firstField =>
      enter
      flowField true
  | .field => flowField false
  | .fieldValue => fieldValue
  | .missingValue => nothing (← peek) .field

/- Fails with an error that was noted. -/
def failNoted : Walk Unit := do
  match (← get).tokens.source.noted with
  | none => return ()
  | some e => throw e

/- The next part. An error that was noted takes its place. -/
def next : Walk Event := do
  let event ← step
  failNoted
  return event

/-
  Starts walking: decodes the first block and goes behind the
  start of the text.
-/
def start : Walk Unit := do
  onTokens (Fetching.onSource loadFirst)
  let _ ← peek
  take
  failNoted

end Walk

end Yaml

end Pep9
