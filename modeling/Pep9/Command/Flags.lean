import Pep9.Settings.Basic
import Pep9.Text.Numeral
import Pep9.Text.Quoted
import Pep9.Command.Path

/-
  The arguments of the command.

  Key definitions: `Options`, `Flag`, `Mistake`, `readFlags`,
  `readArguments`.
-/

namespace Pep9

namespace Command

def name : String :=
  "pep9c"

/- The settings file beside a source. -/
def settingsName : String :=
  "pep9c.yaml"

/-
  What the arguments ask for. An empty path is none, and a
  setting that is not given is `none`.
-/
structure Options where
  file : String
  output : String
  settings : String
  beside : Bool
  treeOnly : Bool
  object : Bool
  execute : Bool
  verbose : Bool
  arrayBytes : Option Int
  labelWidth : Option Int
  comments : Option Bool
  maxSteps : Option Int
deriving DecidableEq, Repr

namespace Options

def none : Options where
  file := ""
  output := ""
  settings := ""
  beside := false
  treeOnly := false
  object := false
  execute := false
  verbose := false
  arrayBytes := .none
  labelWidth := .none
  comments := .none
  maxSteps := .none

/- Settings with those that are given replaced. -/
def override (o : Options) (s : Settings) : Settings :=
  { s with
    arrayBytes := o.arrayBytes.getD s.arrayBytes
    labelWidth := o.labelWidth.getD s.labelWidth
    comments := o.comments.getD s.comments
    maxSteps := o.maxSteps.getD s.maxSteps }

end Options

/- A flag, by the kind of its value and what it changes. -/
inductive Flag where
  | text (change : String → Options → Options)
  | switch (change : Bool → Options → Options)
  | number (change : Int → Options → Options)

def flags : List (String × Flag) :=
  [("array-bytes", .number fun v o => { o with arrayBytes := v }),
    ("ast-only", .switch fun v o => { o with treeOnly := v }),
    ("comments", .switch fun v o => { o with comments := v }),
    ("config", .text fun v o => { o with settings := v }),
    ("f", .text fun v o => { o with file := v }),
    ("label-width", .number fun v o => { o with labelWidth := v }),
    ("max-steps", .number fun v o => { o with maxSteps := v }),
    ("o", .text fun v o => { o with output := v }),
    ("obj", .switch fun v o => { o with object := v }),
    ("run", .switch fun v o => { o with execute := v }),
    ("v", .switch fun v o => { o with verbose := v }),
    ("w", .switch fun v o => { o with beside := v })]

def usage : String :=
  "Usage of " ++ name ++ ":\n"
    ++ "  -array-bytes int\n"
    ++ "    \toverride arrays.default_bytes\n"
    ++ "  -ast-only\n"
    ++ "    \tprint the parsed tree as YAML and stop\n"
    ++ "  -comments\n"
    ++ "    \toverride listing.comments (default true)\n"
    ++ "  -config string\n"
    ++ "    \tconfiguration file (default: " ++ settingsName
    ++ " next to the source)\n"
    ++ "  -f string\n"
    ++ "    \tsource file to compile\n"
    ++ "  -label-width int\n"
    ++ "    \toverride listing.label_width\n"
    ++ "  -max-steps int\n"
    ++ "    \toverride run.max_steps (0 disables the limit)\n"
    ++ "  -o string\n"
    ++ "    \twrite the listing to this file instead of stdout\n"
    ++ "  -obj\n"
    ++ "    \tassemble the listing and print the object code\n"
    ++ "  -run\n"
    ++ "    \tassemble the listing and run it, reading DECI input from stdin\n"
    ++ "  -v\ttrace each stage and dump the symbol table\n"
    ++ "  -w\twrite the listing next to the source file with a .pep extension\n"

inductive Mistake where
  | badSyntax (argument : String)
  | unknownFlag (flag : String)
  | helpWanted
  | missingValue (flag : String)
  | badNumber (flag : String) (value : String) (error : Text.Numeral.Error)
  | badSwitch (flag : String) (value : String)
  | objectAndRun
  | noSource
  | twoOutputs
  | invalidSettings (reason : Settings.Invalid)
deriving DecidableEq, Repr

namespace Mistake

def numberText : Text.Numeral.Error → String
  | .malformed => "parse error"
  | .outOfRange => "value out of range"

def text : Mistake → String
  | badSyntax argument => "bad flag syntax: " ++ argument
  | unknownFlag flag => "flag provided but not defined: -" ++ flag
  | helpWanted => "flag: help requested"
  | missingValue flag => "flag needs an argument: -" ++ flag
  | badNumber flag value error =>
      "invalid value " ++ Text.quoted value ++ " for flag -" ++ flag ++ ": "
        ++ numberText error
  | badSwitch flag value =>
      "invalid boolean value " ++ Text.quoted value ++ " for -" ++ flag
        ++ ": parse error"
  | objectAndRun => "use either -obj or -run, not both"
  | noSource => "no source file given"
  | twoOutputs => "use either -o or -w, not both"
  | invalidSettings reason => reason.message

def report (m : Mistake) : String :=
  match m with
  | helpWanted => usage
  | noSource => usage
  | objectAndRun => ""
  | twoOutputs => ""
  | invalidSettings _ => ""
  | _ => m.text ++ "\n" ++ usage

end Mistake

def switchValue? (value : String) : Option Bool :=
  if ["1", "t", "T", "TRUE", "true", "True"].contains value then
    some true
  else if ["0", "f", "F", "FALSE", "false", "False"].contains value then
    some false
  else
    none

def Flag.set (flag : Flag) (name : String) (value : String)
    (o : Options) : Except Mistake Options :=
  match flag with
  | .text change => .ok (change value o)
  | .switch change =>
      match switchValue? value with
      | some v => .ok (change v o)
      | none => .error (.badSwitch name value)
  | .number change =>
      match Text.Numeral.readInt 64 value.toList with
      | .ok v => .ok (change v o)
      | .error e => .error (.badNumber name value e)

/- A flag as an argument: its name and its value behind `=`. -/
structure FlagText where
  name : String
  value : Option String
deriving DecidableEq, Repr

/-
  The parts of a flag without its dashes. The first character
  always belongs to the name.
-/
def FlagText.split : List Char → FlagText
  | [] => ⟨"", none⟩
  | c :: rest =>
      let name := String.ofList (c :: rest.takeWhile (· ≠ '='))
      match rest.dropWhile (· ≠ '=') with
      | [] => ⟨name, none⟩
      | _ :: value => ⟨name, some (String.ofList value)⟩

inductive Argument where
  | operand
  | endOfFlags
  | malformed
  | flag (text : FlagText)
deriving DecidableEq, Repr

/- A flag without its dashes, unless it is malformed. -/
def Argument.ofName (cs : List Char) : Argument :=
  if cs.head? = none ∨ cs.head? = some '-' ∨ cs.head? = some '=' then
    .malformed
  else
    .flag (.split cs)

/- Tells flags, with one dash or two, from other arguments. -/
def Argument.of (s : String) : Argument :=
  match s.toList with
  | ['-', '-'] => .endOfFlags
  | '-' :: '-' :: rest => .ofName rest
  | '-' :: c :: rest => .ofName (c :: rest)
  | _ => .operand

structure Given where
  options : Options
  operands : List String
deriving DecidableEq, Repr

/- Reads flags up to the first argument that is none. -/
def readFlags (o : Options) : List String → Except Mistake Given
  | [] => .ok ⟨o, []⟩
  | argument :: rest =>
      match Argument.of argument with
      | .operand => .ok ⟨o, argument :: rest⟩
      | .endOfFlags => .ok ⟨o, rest⟩
      | .malformed => .error (.badSyntax argument)
      | .flag text =>
          match flags.lookup text.name, text.value with
          | none, _ =>
              if text.name = "help" ∨ text.name = "h" then
                .error .helpWanted
              else
                .error (.unknownFlag text.name)
          | some flag, some value => do
              readFlags (← flag.set text.name value o) rest
          | some (.switch change), none => readFlags (change true o) rest
          | some flag, none =>
              match rest with
              | [] => .error (.missingValue text.name)
              | value :: others => do
                  readFlags (← flag.set text.name value o) others

def Given.withOperand (g : Given) : Options :=
  match g.operands with
  | [file] =>
      if g.options.file = "" then
        { g.options with file := file }
      else
        g.options
  | _ => g.options

def readArguments (args : List String) : Except Mistake Options := do
  let given ← readFlags .none args
  if given.options.object && given.options.execute then
    throw .objectAndRun
  else
    let o := given.withOperand
    if o.file = "" then
      throw .noSource
    else if o.beside then
      if o.output ≠ "" then
        throw .twoOutputs
      else
        return { o with output := Path.withExtension o.file ".pep" }
    else
      return o

end Command

end Pep9
