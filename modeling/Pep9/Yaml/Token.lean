import Pep9.Yaml.Source

/-
  Tokens of a document. Indentation outside of brackets is
  turned into tokens for the start and the end of blocks.

  Key definitions: `TokenKind`, `Token`.
-/

namespace Pep9

namespace Yaml

/- Kinds of tokens. `plain` tells a scalar without quotes. -/
inductive TokenKind where
  | streamStart
  | streamEnd
  | documentStart
  | documentEnd
  | blockSequenceStart
  | blockMappingStart
  | blockEnd
  | flowSequenceStart
  | flowSequenceEnd
  | flowMappingStart
  | flowMappingEnd
  | blockEntry
  | flowEntry
  | key
  | value
  | scalar (plain : Bool) (text : String)
deriving DecidableEq, Repr

structure Token where
  kind : TokenKind
  mark : Mark
deriving DecidableEq, Repr

namespace Token

def startsBlock (t : Token) : Bool :=
  [.blockSequenceStart, .blockMappingStart].contains t.kind

end Token

end Yaml

end Pep9
