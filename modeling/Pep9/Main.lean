import Pep9.Command.Run

/-
  The command line: the system as a host for the command.

  Key definitions: `Terminal.host`, `main`.
-/

namespace Pep9

namespace Command

namespace Terminal

/- The number of the fault that a name is a directory. -/
def isDirectoryCode : UInt32 :=
  21

def reason : IO.Error → FileReason
  | .noFileOrDirectory _ _ _ => .missing
  | .inappropriateType _ code _ =>
      if code = isDirectoryCode then .isDirectory else .notDirectory
  | .permissionDenied _ _ _ => .other "permission denied"
  | e => .other (toString e)

/- What a fault was found by, when a file is read. -/
def readAction : FileReason → FileAction
  | .isDirectory => .reading
  | _ => .opening

def read (path : String) : IO (Except FileFault String) := do
  match ← (IO.FS.readFile path).toBaseIO with
  | .ok text => return .ok text
  | .error e => return .error ⟨readAction (reason e), path, reason e⟩

def isMissing (path : String) : IO Bool := do
  match ← read path with
  | .ok _ => return false
  | .error fault => return fault.reason = .missing

def create (path : String) (text : String) : IO (Except FileFault Unit) := do
  match ← (IO.FS.writeFile path text).toBaseIO with
  | .ok _ => return .ok ()
  | .error e => return .error ⟨.opening, path, reason e⟩

/- The heading of messages, in red on a screen. -/
def heading : IO String := do
  if ← (← IO.getStderr).isTty then
    return "\x1b[31m" ++ name ++ ":\x1b[0m "
  else
    return standardHeading

def host : IO (Host IO) := do
  let directory ← IO.currentDir
  let input ← IO.getStdin
  return {
    directory := directory.toString
    heading := ← heading
    read := read
    isMissing := isMissing
    create := create
    input := input.readToEnd
    print := IO.print
    report := IO.eprint }

end Terminal

end Command

end Pep9

/-
  Runs the command. Mistakes in the arguments are reported
  already and have a status of their own.
-/
def main (args : List String) : IO UInt32 := do
  let host ← Pep9.Command.Terminal.host
  match ← (host.run args).run with
  | .ok _ => return 0
  | .error (.usage _) => return 2
  | .error failure =>
      IO.eprint (host.logLine failure.message)
      return 1
