import Pep9.Yaml.Source

/-
  Comments. A comment stands behind a token on its line, or on
  lines of its own. There it heads what follows, or it is a
  foot of what comes before: when an empty line follows, when
  it is less indented, or when a bracket closes behind it.

  Key definitions: `Comment`, `scanComments`,
  `scanLineComment`.
-/

namespace Pep9

namespace Yaml

inductive CommentKind where
  | head (text : List Char)
  | line (text : List Char)
  | foot
deriving DecidableEq, Repr

/-
  A comment, the line on which it starts, and the index from
  which on a token takes it.
-/
structure Comment where
  owner : Nat
  line : Nat
  kind : CommentKind
deriving DecidableEq, Repr

/- How far ahead a comment is looked for. -/
def commentReach : Nat :=
  512

/-
  Reads the text of a comment whose first character has a
  given index, and skips what comes before it. The text is
  read behind `text`, the last character first.
-/
def readComment (index : Nat) : Nat → List Char → Reading (List Char)
  | 0, text => return text
  | fuel + 1, text => do
      need 1
      let s ← get
      match s.ready with
      | [] => return text
      | c :: _ =>
          if isBreak c then
            if s.mark.index < index then
              need 2
              skipLine
              readComment index fuel text
            else
              return text
          else
            skip
            readComment index fuel
              (if s.mark.index < index then text else c :: text)

/- The number of blanks before a comment on this line, if any. -/
def blanksToComment : Nat → Nat → Reading (Option Nat)
  | 0, _ => return none
  | left + 1, ahead => do
      if ← reaches (ahead + 1) then
        match (← get).ready[ahead]? with
        | none => return none
        | some c =>
            if isBlank c then
              blanksToComment left (ahead + 1)
            else
              return if c = '#' then some ahead else none
      else
        return none

/-
  Reads a comment behind a token on its line, which goes to
  tokens from the index `owner` on.
-/
def scanLineComment (owner : Nat) : Reading (Option Comment) := do
  let s ← get
  if s.breaks > 0 then
    return none
  else
    match ← blanksToComment commentReach 0 with
    | none => return none
    | some ahead =>
        let text ← readComment (s.mark.index + ahead) s.size []
        return some ⟨owner, s.mark.line, .line text.reverse⟩

/-
  Where comments are read: the indentation, whether in
  brackets, whether a value is due, and the line on which a
  comment is still at the foot of the last token.
-/
structure CommentPlace where
  indent : Nat
  flow : Bool
  valueDue : Bool
  footLine : Int

/-
  The comments found, the last first, and the one being read:
  its text, the last character first, its start and its owner.
  `line` and `column` tell where we look, `emptyLine` whether
  we look behind an empty line, and `footed` whether the
  comment may still be a foot.
-/
structure CommentRun where
  found : List Comment
  text : List Char
  start : Mark
  owner : Nat
  line : Nat
  column : Nat
  emptyLine : Bool
  footed : Bool

namespace CommentRun

/- Ends the comment, if there is one, as a foot. -/
def closeFoot (r : CommentRun) (owner : Nat) (index : Nat) : CommentRun :=
  if r.text.isEmpty then
    r
  else
    { r with
      found := ⟨owner, r.start.line, .foot⟩ :: r.found
      text := []
      owner := index }

/- Whether the comment is less indented than the block. -/
def isOutdented (r : CommentRun) (p : CommentPlace) : Bool :=
  r.start.column ≤ p.indent

/- Whether the comment is a foot when its line is the last. -/
def isFoot (r : CommentRun) (p : CommentPlace) : Bool :=
  r.footed
    && ((r.start.line == p.footLine && !p.valueDue) || r.isOutdented p)

/-
  What becomes of the comment at the end of a line, where
  `closing` tells of a closing bracket and `atEnd` of the end
  of the text.
-/
def endLine (r : CommentRun) (p : CommentPlace) (closing : Bool) (atEnd : Bool)
    (index : Nat) : CommentRun :=
  if r.emptyLine && !closing then
    r
  else if closing || r.isFoot p then
    r.closeFoot (if r.isOutdented p then r.start.index else r.owner) index
  else if r.text.isEmpty || atEnd then
    r
  else
    { r with text := '\n' :: r.text }

def nextLine (r : CommentRun) : CommentRun :=
  { r with
    line := r.line + 1
    column := 0
    emptyLine := true
    footed := false }

/- What becomes of the comment before other text. -/
def beforeText (r : CommentRun) (p : CommentPlace) (index : Nat) : CommentRun :=
  if r.column ≤ p.indent && r.column ≠ r.start.column then
    r.closeFoot r.owner index
  else
    r

def startLine (r : CommentRun) (index : Nat) : CommentRun :=
  if r.text.isEmpty then
    { r with start := ⟨index, r.line, r.column⟩ }
  else
    { r with text := '\n' :: r.text }

/- The comments found, where the last one heads what follows. -/
def finish (r : CommentRun) : List Comment :=
  let found :=
    if r.text.isEmpty then
      r.found
    else
      ⟨r.start.index, r.start.line, .head r.text.reverse⟩ :: r.found
  found.reverse

end CommentRun

def isWideBreak (c : Char) : Bool :=
  isBreak c && c.utf8Size > 1

/-
  Ends reading behind a wide line break. No comment is looked
  for after it, and the break counts as text of the next line.
-/
def stopBehindBreak (p : CommentPlace) (r : CommentRun)
    (ahead : Nat) : Reading CommentRun := do
  if ahead < commentReach then
    if ← reaches (ahead + 1) then
      let index := (← get).mark.index + ahead
      return { r with column := 1 }.beforeText p index
    else
      return r
  else
    return r

/-
  Reads comments, where the next one is looked for `ahead` of
  the position.
-/
def commentsFrom
    (p : CommentPlace) : Nat → Nat → CommentRun → Reading CommentRun
  | 0, _, r => return r
  | fuel + 1, ahead, run => do
      if ahead < commentReach then
        if ← reaches (ahead + 1) then
          let s ← get
          let r := { run with column := run.column + 1 }
          let index := s.mark.index + ahead
          match s.ready[ahead]? with
          | none => return r.endLine p false true index
          | some c =>
              let closing := p.flow && (c == ']' || c == '\x7d')
              if isBlank c then
                commentsFrom p fuel (ahead + 1) r
              else if closing then
                return r.endLine p true false index
              else if isBreak c then
                let next := (r.endLine p false false index).nextLine
                if isWideBreak c then
                  stopBehindBreak p next (ahead + 1)
                else
                  commentsFrom p fuel (ahead + 1) next
              else
                let before := r.beforeText p index
                if c = '#' then
                  let started := before.startLine index
                  let text ← readComment index s.size started.text
                  let after ← get
                  let next :=
                    { started with
                      text := text
                      line := after.mark.line
                      column := 0
                      emptyLine := false }
                  if after.ready.head?.any isWideBreak then
                    stopBehindBreak p next 1
                  else
                    commentsFrom p fuel 1 next
                else
                  return before
        else
          return run
      else
        return run

/-
  Reads the comments that start here, after a token whose
  start has the index `owner`.
-/
def scanComments (p : CommentPlace) (owner : Nat) : Reading (List Comment) := do
  let s ← get
  let run ← commentsFrom p (2 * s.size + commentReach) 0
    { found := []
      text := []
      start := .start
      owner := owner
      line := s.mark.line
      column := s.mark.column
      emptyLine := false
      footed := s.breaks ≤ 1 }
  return run.finish

end Yaml

end Pep9
