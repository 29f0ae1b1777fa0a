import Pep9.Command.Path

/-
  Files as the command sees them, and a tree of files that is
  kept in memory.

  Key definitions: `FileFault`, `Tree`, `Tree.read`,
  `Tree.create`.
-/

namespace Pep9

namespace Command

inductive FileReason where
  | missing
  | isDirectory
  | notDirectory
  | other (text : String)
deriving DecidableEq, Repr

def FileReason.text : FileReason → String
  | missing => "no such file or directory"
  | isDirectory => "is a directory"
  | notDirectory => "not a directory"
  | other text => text

inductive FileAction where
  | opening
  | reading
deriving DecidableEq, Repr

def FileAction.text : FileAction → String
  | opening => "open"
  | reading => "read"

structure FileFault where
  action : FileAction
  path : String
  reason : FileReason
deriving DecidableEq, Repr

def FileFault.message (f : FileFault) : String :=
  f.action.text ++ " " ++ f.path ++ ": " ++ f.reason.text

/- The names on the way from the root to a place. -/
abbrev Place :=
  List String

structure File where
  place : Place
  text : String
deriving DecidableEq, Repr

/-
  A tree of files. Directories are those around a file and
  around the working directory `home`.
-/
structure Tree where
  home : Place
  files : List File
deriving DecidableEq, Repr

namespace Tree

def find? (t : Tree) (place : Place) : Option File :=
  t.files.find? fun f => f.place = place

def isDirectory (t : Tree) (place : Place) : Bool :=
  place.isPrefixOf t.home
    || t.files.any fun f => place.isPrefixOf f.place && place ≠ f.place

def notDirectory (t : Tree) (place : Place) : FileReason :=
  if (t.find? place).isSome then .notDirectory else .missing

/-
  The place after some names. Each name is looked up in a
  directory.
-/
def walk (t : Tree) (place : Place) : List String → Except FileReason Place
  | [] => .ok place
  | name :: rest =>
      if t.isDirectory place then
        if name = "" ∨ name = "." then
          walk t place rest
        else if name = ".." then
          walk t place.dropLast rest
        else
          walk t (place ++ [name]) rest
      else
        .error (t.notDirectory place)

def locate (t : Tree) (path : String) : Except FileReason Place :=
  if path = "" then
    .error .missing
  else if Path.isRooted path then
    t.walk [] (Path.names path)
  else
    t.walk t.home (Path.names path)

/- Whether a path certainly names nothing. -/
def isMissing (t : Tree) (path : String) : Bool :=
  match t.locate path with
  | .error reason => reason = .missing
  | .ok place => !(t.isDirectory place || (t.find? place).isSome)

def read (t : Tree) (path : String) : Except FileFault String :=
  match t.locate path with
  | .error reason => .error ⟨.opening, path, reason⟩
  | .ok place =>
      match t.find? place with
      | some file => .ok file.text
      | none =>
          if t.isDirectory place then
            .error ⟨.reading, path, .isDirectory⟩
          else
            .error ⟨.opening, path, .missing⟩

def put (t : Tree) (place : Place) (text : String) : Tree :=
  { t with
    files :=
      if (t.find? place).isSome then
        t.files.map fun f => if f.place = place then ⟨place, text⟩ else f
      else
        t.files ++ [⟨place, text⟩] }

/- A path without the slashes at its end, but one at its start. -/
def withoutSlashes (path : String) : String :=
  match path.toList with
  | [] => ""
  | c :: rest =>
      String.ofList (c :: (rest.reverse.dropWhile (· = '/')).reverse)

/-
  The place of a file to create. A slash at the end asks for
  a directory.
-/
def locateNew (t : Tree) (path : String) : Except FileReason Place := do
  let place ← t.locate (withoutSlashes path)
  if path ≠ withoutSlashes path ∨ t.isDirectory place then
    throw .isDirectory
  else
    return place

def create (t : Tree) (path : String) (text : String) : Except FileFault Tree :=
  match t.locateNew path with
  | .error reason => .error ⟨.opening, path, reason⟩
  | .ok place => .ok (t.put place text)

end Tree

end Command

end Pep9
