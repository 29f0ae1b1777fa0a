import Pep9.Listing.Instruction
import Pep9.Text.Column

/-
  Programs and their listings.

  Key definitions: `Frame`, `Program`, `Layout`,
  `Program.listing`.
-/

namespace Pep9

namespace Listing

/- The places of a function on the stack, in order. -/
structure Frame where
  function : String
  decls : List Declaration
deriving DecidableEq

/-
  A program: the name of its source, the label at which it
  starts, its storage, the frames of its functions and its
  instructions.
-/
structure Program where
  source : String
  entry : String
  data : List Declaration
  frames : List Frame
  code : List Instruction
deriving DecidableEq

structure Layout where
  comments : Bool
  labelWidth : Int
deriving DecidableEq, Repr

namespace Layout

def standard : Layout where
  comments := true
  labelWidth := 9

/- The width in use; one that is not positive means the usual. -/
def width (layout : Layout) : Nat :=
  if layout.labelWidth ≤ 0 then
    standard.labelWidth.toNat
  else
    layout.labelWidth.toNat

/- Columns are filled up to at most this width. -/
def widest : Nat :=
  1000000

/-
  The label column. A column that is too wide is marked and
  not filled.
-/
def labelColumn (layout : Layout) (label : String) : String :=
  if layout.width > widest then
    "%!(BADWIDTH)" ++ label ++ ":"
  else
    Text.padRight layout.width (label ++ ":")

/- A line with a label column, which is empty without a label. -/
def line (layout : Layout) (label : String) (text : String) : String :=
  if label = "" then
    "\t\t" ++ text ++ "\n"
  else
    layout.labelColumn label ++ "\t" ++ text ++ "\n"

/- A comment on a line of its own, where comments are on. -/
def comment (layout : Layout) (text : String) : String :=
  if layout.comments then
    "; " ++ text ++ "\n"
  else
    ""

def declarations (layout : Layout) (decls : List Declaration) : String :=
  String.join (decls.map fun d => layout.line d.name d.text)

def frame (layout : Layout) (f : Frame) : String :=
  layout.comment ("Allocating stack frame for " ++ f.function)
    ++ layout.declarations f.decls

end Layout

def Program.listing (p : Program) (layout : Layout) : String :=
  (if p.source = "" then "" else layout.comment ("Translating " ++ p.source))
    ++ layout.comment "Branching to top level (tl) instructions"
    ++ layout.line "" (Instruction.jump .br p.entry).text
    ++ layout.comment "Allocating Global (static) memory"
    ++ layout.declarations p.data
    ++ String.join (p.frames.map layout.frame)
    ++ layout.comment "Top Level instructions"
    ++ String.join (p.code.map fun i => layout.line i.label i.text)
    ++ layout.line "" ".END"

end Listing

end Pep9
