import Pep9.Assembly.Object
import Pep9.Command.Files
import Pep9.Command.Flags
import Pep9.Compile.Generate
import Pep9.Machine.Run
import Pep9.Script.Tree
import Pep9.Settings.Document

/-
  The command: from arguments and files to a listing, object
  code or a run. It works on any host that has files, an
  input and two outputs.

  Key definitions: `Host`, `Failure`, `run`, `World`,
  `World.host`.
-/

namespace Pep9

namespace Command

/-
  What the command needs around it: the working directory,
  the heading of messages, files, an input, an output and a
  place for messages.
-/
structure Host (m : Type → Type) where
  directory : String
  heading : String
  read : String → m (Except FileFault String)
  isMissing : String → m Bool
  create : String → String → m (Except FileFault Unit)
  input : m String
  print : String → m Unit
  report : String → m Unit

def standardHeading : String :=
  name ++ ": "

inductive Failure where
  | usage (mistake : Mistake)
  | source (fault : FileFault)
  | settingsFile (path : String) (fault : FileFault)
  | settings (path : String) (failure : Settings.Failure)
  | parsing (error : Script.SourceError)
  | compiling (failure : Compile.Failure)
  | output (path : String) (fault : FileFault)
  | assembling (error : Assembly.Error)
  | loading (error : Machine.LoadError)
  | running (fault : Machine.Fault)

def Failure.message : Failure → String
  | usage mistake => "usage: " ++ mistake.text
  | source fault => "failed to read source file: " ++ fault.message
  | settingsFile path fault =>
      "reading config " ++ path ++ ": " ++ fault.message
  | settings path failure => failure.message path
  | parsing error => error.message
  | compiling failure => failure.message
  | output path fault =>
      "failed to create output file " ++ Text.quoted path ++ ": "
        ++ fault.message
  | assembling error => "assembly failed: " ++ error.message
  | loading error => error.message
  | running fault => "run failed: " ++ fault.message

section Stages

variable {m : Type → Type} [Monad m]

/- Lifts a result of the host, with its faults as failures. -/
def attempt {α ε : Type} (failure : ε → Failure)
    (action : m (Except ε α)) : ExceptT Failure m α := do
  match ← (action : m (Except ε α)) with
  | .ok a => return a
  | .error e => throw (failure e)

def Host.logLine (host : Host m) (text : String) : String :=
  let line := host.heading ++ text
  if line.toList.getLast? = some '\n' then line else line ++ "\n"

/- Reports what is done, when that is wanted. -/
def Host.log (host : Host m) (o : Options)
    (text : String) : ExceptT Failure m Unit :=
  if o.verbose then
    ExceptT.lift (host.report (host.logLine text))
  else
    return ()

def Host.loadSettings (host : Host m)
    (path : String) : ExceptT Failure m Settings := do
  let text ← attempt (.settingsFile path) (host.read path)
  match Settings.parse text with
  | .ok s => return s
  | .error e => throw (.settings path e)

/- The settings of the file that is named, or beside the source. -/
def Host.fileSettings (host : Host m) (o : Options)
    (directory : String) : ExceptT Failure m Settings := do
  if o.settings ≠ "" then
    host.loadSettings o.settings
  else
    let path := Path.join directory settingsName
    if ← ExceptT.lift (host.isMissing path) then
      return .standard
    else
      host.loadSettings path

/- The settings in use: those of the file with flags on top. -/
def Host.settingsInUse (host : Host m) (o : Options)
    (directory : String) : ExceptT Failure m Settings := do
  let s ← host.fileSettings o directory
  match (o.override s).check with
  | .ok inUse => return inUse
  | .error reason => throw (.usage (.invalidSettings reason))

/- Writes a listing to the file that is named, or prints it. -/
def Host.writeListing (host : Host m) (o : Options)
    (listing : String) : ExceptT Failure m Unit := do
  if o.output = "" then
    ExceptT.lift (host.print listing)
  else
    attempt (.output o.output) (host.create o.output listing)
    host.log o ("wrote " ++ o.output)

/- Runs object code. What it printed stands also after a fault. -/
def Host.execute (host : Host m) (o : Options) (s : Settings)
    (code : List UInt8) : ExceptT Failure m Unit := do
  let input ← ExceptT.lift host.input
  match (Machine.initial input).load code with
  | .error e => throw (.loading e)
  | .ok start =>
      let (final, fault) := start.run s.maxSteps
      ExceptT.lift (host.print final.output)
      match fault with
      | some f => throw (.running f)
      | none =>
          host.log o
            ("halted after " ++ toString final.steps ++ " instructions")

/- Assembles a listing, and prints the object code or runs it. -/
def Host.assemble (host : Host m) (o : Options) (s : Settings)
    (listing : String) : ExceptT Failure m Unit := do
  match Assembly.assemble .empty listing with
  | (_, .error e) => throw (.assembling e)
  | (symbols, .ok object) =>
      let code := object.bytes
      host.log o
        ("assembled " ++ toString code.length ++ " bytes\n" ++ symbols.dump)
      if o.execute then
        host.execute o s code
      else
        ExceptT.lift (host.print (Assembly.format code))

def Host.printTree (host : Host m)
    (text : String) : ExceptT Failure m Unit := do
  match Script.parseSource text with
  | .error e => throw (.parsing e)
  | .ok stmts => ExceptT.lift (host.print (Script.dump stmts))

def Host.compile (host : Host m) (o : Options) (s : Settings) (path : String)
    (text : String) : ExceptT Failure m Compile.Compiled := do
  host.log o
    ("compiling " ++ path ++ " (default array size "
      ++ toString s.arrayBytes ++ " bytes)")
  match Compile.compile ⟨Int64.ofInt s.arrayBytes, Path.base o.file⟩ text with
  | .error e => throw (.compiling e)
  | .ok c =>
      host.log o
        ("generated " ++ toString c.program.code.length ++ " instructions, "
          ++ toString c.program.data.length ++ " globals, "
          ++ toString c.program.frames.length ++ " functions")
      host.log o ("symbol table:\n" ++ c.table.describe)
      return c

/- Compiles a source text and goes on as the options ask. -/
def Host.process (host : Host m) (o : Options) (path : String)
    (text : String) : ExceptT Failure m Unit := do
  let s ← host.settingsInUse o (Path.parent path)
  let c ← host.compile o s path text
  let listing := c.program.listing ⟨s.comments, s.labelWidth⟩
  if !o.execute || o.output ≠ "" then
    host.writeListing o listing
  if o.object || o.execute || s.assemble then
    host.assemble o s listing

/- Reads the arguments; mistakes are reported. -/
def Host.arguments (host : Host m)
    (args : List String) : ExceptT Failure m Options := do
  match readArguments args with
  | .ok o => return o
  | .error mistake =>
      ExceptT.lift (host.report mistake.report)
      throw (.usage mistake)

def Host.run (host : Host m) (args : List String) : ExceptT Failure m Unit := do
  let o ← host.arguments args
  let path := Path.absolute host.directory o.file
  let text ← attempt .source (host.read path)
  if o.treeOnly then
    host.printTree text
  else
    host.process o path text

end Stages

/- Files, an input, and what was printed and reported. -/
structure World where
  tree : Tree
  input : String
  output : String
  messages : String

namespace World

def host (home : Place) : Host (StateM World) where
  directory := "/" ++ "/".intercalate home
  heading := standardHeading
  read := fun path w => (w.tree.read path, w)
  isMissing := fun path w => (w.tree.isMissing path, w)
  create := fun path text w =>
    match w.tree.create path text with
    | .ok tree => (.ok (), { w with tree := tree })
    | .error e => (.error e, w)
  input := fun w => (w.input, w)
  print := fun text w => ((), { w with output := w.output ++ text })
  report := fun text w => ((), { w with messages := w.messages ++ text })

def run (w : World) (args : List String) : Except Failure Unit × World :=
  ((host w.tree.home).run args).run w

end World

end Command

end Pep9
