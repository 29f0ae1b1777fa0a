/-
  Paths with slashes, handled as texts.

  Key definitions: `Path.clean`, `Path.absolute`,
  `Path.parent`, `Path.base`, `Path.extension`,
  `Path.withExtension`.
-/

namespace Pep9

namespace Command

namespace Path

def pieces : List Char → List (List Char)
  | [] => [[]]
  | c :: rest =>
      match pieces rest with
      | [] => [[c]]
      | piece :: others =>
          if c = '/' then
            [] :: piece :: others
          else
            (c :: piece) :: others

/- The names between slashes, some of which may be empty. -/
def names (path : String) : List String :=
  (pieces path.toList).map String.ofList

def isRooted (path : String) : Bool :=
  path.toList.head? = some '/'

/-
  Adds a name to the names before it, the last of which is
  the first. Two dots take a name away where there is one.
-/
def step (rooted : Bool) (before : List String) (name : String) : List String :=
  if name = "" ∨ name = "." then
    before
  else if name = ".." then
    match before with
    | [] => if rooted then [] else [".."]
    | last :: rest => if last = ".." then ".." :: last :: rest else rest
  else
    name :: before

/- The shortest path that names the same place. -/
def clean (path : String) : String :=
  let rooted := isRooted path
  let kept := ((names path).foldl (step rooted) []).reverse
  if rooted then
    "/" ++ "/".intercalate kept
  else if kept.isEmpty then
    "."
  else
    "/".intercalate kept

def join (directory : String) (path : String) : String :=
  if directory = "" then
    if path = "" then "" else clean path
  else if path = "" then
    clean directory
  else
    clean (directory ++ "/" ++ path)

/- The path from the root, given the working directory. -/
def absolute (directory : String) (path : String) : String :=
  if isRooted path then
    clean path
  else
    join directory path

/- The characters after the last slash, the last first. -/
def lastBackwards (path : String) : List Char :=
  path.toList.reverse.takeWhile (· ≠ '/')

def parent (path : String) : String :=
  clean (String.ofList (path.toList.reverse.dropWhile (· ≠ '/')).reverse)

def base (path : String) : String :=
  let trimmed := path.toList.reverse.dropWhile (· = '/')
  if path = "" then
    "."
  else if trimmed.isEmpty then
    "/"
  else
    String.ofList (trimmed.takeWhile (· ≠ '/')).reverse

/-
  The part of the last name from its last dot on; it is empty
  when there is no dot.
-/
def extension (path : String) : String :=
  let last := lastBackwards path
  if last.contains '.' then
    "." ++ String.ofList (last.takeWhile (· ≠ '.')).reverse
  else
    ""

/- The path with another extension, with or without its dot. -/
def withExtension (path : String) (ext : String) : String :=
  let kept := path.toList.take (path.length - (extension path).length)
  let dotted := if ext.toList.head? = some '.' then ext else "." ++ ext
  String.ofList kept ++ dotted

end Path

end Command

end Pep9
