import Pep9.Proofs.Assembly.RoundTrip
import Pep9.Proofs.Compile.Loading

/-
  The correctness of compilation for scripts without functions
  and arrays. The code from the entry on executes the script,
  so the loaded object code does what the interpreter does.

  Key theorems: `ScalarScript.follows`, `ScalarScript.agrees`,
  `compile_agrees`.
-/

namespace Pep9

open List
open Machine (stackTop)
open Script (State Stmt Store)

variable {layout : Listing.Layout} {place : Sites}

namespace Compile

variable {after pending : Pending} {code : Code} {declared : Store} {stmts : List Stmt}

/- The code of a block is that of its first and last part. -/
theorem Lowers.split {first second : List Stmt}
    (h : Lowers place declared pending (first ++ second) code after) :
    ∃ code₁ code₂ between, code = code₁ ++ code₂ ∧
      Lowers place declared pending first code₁ between ∧
        Lowers place declared between second code₂ after := by
  induction first generalizing pending code with
  | nil => exact ⟨[], code, pending, rfl, .nil _, h⟩
  | cons _ _ ih =>
    cases h with
    | @cons _ _ _ _ _ head _ hFirst hRest =>
      rcases ih hRest with ⟨code₁, code₂, middle, rfl, h₁, h₂⟩
      exact ⟨head ++ code₁, code₂, middle, (append_assoc ..).symm, .cons hFirst h₁, h₂⟩

/- A script that ends with `exit` is some others and that. -/
theorem endsWithExit_eq_true (h : endsWithExit stmts = true) :
    ∃ others line args, stmts = others ++ [.expr line (.call "exit" args)] := by
  unfold endsWithExit at h
  split at h
  · next line function args hLast =>
    rcases getLast?_eq_some_iff.mp hLast with ⟨others, hStmts⟩
    rw [of_decide_eq_true h] at hStmts
    exact ⟨others, line, args, hStmts⟩
  · cases h

theorem LowersStmt.exit_eq {stmt : Stmt} {line : Int} {args : List Script.Expr}
    (h : LowersStmt place declared pending stmt code after)
    (hStmt : stmt = .expr line (.call "exit" args)) :
    args = [] ∧ code = [.plain .stop] := by
  cases h with
  | exit =>
    cases hStmt
    exact ⟨rfl, rfl⟩
  | value hExit =>
    cases hStmt
    exact absurd rfl hExit
  | _ => simp at hStmt

theorem Lowers.follows_ending {w : World} {before : Code}
    (hCode : Lowers w.place declared pending stmts code after)
    (hAt : w.program.code = before ++ code ++ ending stmts) :
    Follows w declared before pending stmts := by
  unfold ending at hAt
  by_cases hExit : endsWithExit stmts = true
  · rw [if_pos hExit] at hAt
    rcases endsWithExit_eq_true hExit with ⟨_, _, _, rfl⟩
    rcases hCode.split with ⟨_, _, _, rfl, hOthers, hLast⟩
    cases hLast with
    | cons hCall hNone =>
      rcases hCall.exit_eq rfl with ⟨rfl, rfl⟩
      rw [append_nil, ← append_assoc] at hAt
      exact hOthers.follows hAt (.exit hAt)
  · rw [if_neg hExit] at hAt
    have hAll := hCode.follows hAt (.halt hAt)
    rw [append_nil] at hAll
    exact hAll

section Parts

variable {options : Options} {compiled : Compiled}
  {parts : Parts options .empty stmts compiled} {value : String → UInt16} {bytes : List UInt8}

/- The code from the entry on executes the script. -/
theorem ScalarScript.follows (h : ScalarScript parts) :
    Follows (parts.world value) (Script.declared stmts) [] parts.started.pending stmts := by
  have hRoot : Script.assignments false stmts = [] ++ Script.assignments false stmts ++ [] := by
    rw [nil_append, append_nil]
  have hLowers := (parts.emits.lowers h.scalars h.loops h.reached h.scalar hRoot).1
  have hCode : (parts.world value).program.code =
      [] ++ [mark parts.entry] ++ parts.code ++ ending stmts := parts.code_eq
  have hMark : (parts.world value).program.code =
      [] ++ mark parts.entry :: (parts.code ++ ending stmts) := hCode
  exact .mark hMark (Lowers.follows_ending hLowers hCode)

/- The loaded program does what the interpreter does. -/
theorem ScalarScript.agrees {m : Machine} {input : String}
    (h : ScalarScript parts)
    (hImage : Assembly.Image compiled.program value bytes)
    (hSize : bytes.length + 2 ≤ stackTop.toNat)
    (hLoaded : m.Loaded bytes input.toList "") :
    Agrees (State.start stmts input) m := by
  rcases h.running hImage hSize hLoaded with ⟨m', hStep, hRunning⟩
  have hMatches : Matches (parts.world value) (Script.declared stmts)
      (State.start stmts input) m' := .at hRunning h.follows fun _ _ => rfl
  exact (hMatches.agrees (h.sound hImage hSize)).of_steps hStep

end Parts

/-
  A program and its object code, which leaves at least a word
  below the stack. The name in the header is on one line.
-/
structure Built (options : Options) (layout : Listing.Layout)
    (compiled : Compiled) (object : Assembly.Object) : Prop where
  header : layout.comments = true → '\n' ∉ options.source.toList
  assembled : ∃ known, Assembly.assemble .empty (compiled.program.listing layout) =
        (known, .ok object)
  size : object.bytes.length + 2 ≤ stackTop.toNat

/- Whether the object code of a program fits below the stack. -/
def Compiled.fits (compiled : Compiled) : Bool :=
  Assembly.Writable compiled.program ∧ Assembly.programSize compiled.program + 2 ≤ stackTop.toNat

theorem exists_built {result : Except Failure Compiled}
    (options : Options)
    (hHeader : layout.comments = true → '\n' ∉ options.source.toList)
    (hWidth : layout.width ≤ Listing.Layout.widest)
    (h : result.toOption.any Compiled.fits = true) :
    ∃ compiled object, result = .ok compiled ∧ Built options layout compiled object := by
  rcases Result.any_eq_true.mp h with ⟨compiled, hCompiled, hFits⟩
  rcases of_decide_eq_true hFits with ⟨hWritable, hSize⟩
  rcases Assembly.assemble_of_width hWritable hWidth with ⟨known, object, hAssembled, hLength⟩
  exact ⟨compiled, object, hCompiled, hHeader, ⟨known, hAssembled⟩, hLength ▸ hSize⟩

/- The layout of the listings below. -/
theorem narrow :
    (⟨false, 9⟩ : Listing.Layout).width ≤ Listing.Layout.widest := by
  decide

/- The object code of such a script agrees with it. -/
theorem ScalarScript.runs {options : Options} {compiled : Compiled}
    {parts : Parts options .empty stmts compiled} {object : Assembly.Object}
    (h : ScalarScript parts)
    (hBuilt : Built options layout compiled object)
    (input : String) :
    ∃ m, (Machine.initial input).load object.bytes = .ok m ∧
        Agrees (State.start stmts input) m := by
  rcases hBuilt.assembled with ⟨_, hAssembled⟩
  have hImage := h.facts.image h.named hBuilt.header hAssembled
  have hFits : object.bytes.length < stackTop.toNat := by
    have hSize := hBuilt.size
    omega
  have hLoad := Machine.load_eq_ok (m := Machine.initial input) hFits
  rcases hLoad with ⟨m, hLoad, hLoaded⟩
  exact ⟨m, hLoad, h.agrees hImage hBuilt.size hLoaded⟩

/- A source text without functions and arrays that compiles. -/
theorem scalarScript_of_compile {options : Options} {source : String}
    {compiled : Compiled}
    (hParsed : Script.parseSource source = .ok stmts)
    (hCompiled : compile options source = .ok compiled)
    (hScalar : Script.isScalar stmts = true)
    (hLoops : Script.DeclaredOutsideLoops stmts) :
    ∃ parts : Parts options .empty stmts compiled, ScalarScript parts := by
  rcases compile_generate hCompiled with ⟨_, hSame, hGenerated⟩
  cases hParsed.symm.trans hSame
  rcases generate_allocated hGenerated with ⟨parts, _⟩
  have hNamed := Script.parseSource_wellNamed hParsed
  exact ⟨parts, facts_of_parts parts hNamed, hNamed, hScalar, hLoops⟩

/-
  The object code of a script without functions and arrays,
  loaded and run, prints what the interpreter prints, and it
  halts, fails on the input or runs for ever as that does.
-/
theorem compile_agrees {options : Options} {source : String} {stmts : List Stmt}
    {compiled : Compiled} {layout : Listing.Layout} {object : Assembly.Object}
    (hParsed : Script.parseSource source = .ok stmts)
    (hCompiled : compile options source = .ok compiled)
    (hScalar : Script.isScalar stmts = true)
    (hLoops : Script.DeclaredOutsideLoops stmts)
    (hBuilt : Built options layout compiled object)
    (input : String) :
    ∃ m, (Machine.initial input).load object.bytes = .ok m ∧
      Agrees (State.start stmts input) m := by
  rcases scalarScript_of_compile hParsed hCompiled hScalar hLoops with ⟨_, hScript⟩
  exact hScript.runs hBuilt input

/- A number of the input is counted down. -/
def countdown : String :=
  "n = int(input())\nwhile n > 0:\n    print(n)\n    n = n - 1\n"

theorem compile_agrees_countdown :
    ∃ stmts compiled object,
      Script.parseSource countdown = .ok stmts ∧ compile ⟨0, ""⟩ countdown = .ok compiled ∧
      Script.isScalar stmts = true ∧ Script.DeclaredOutsideLoops stmts ∧
      Built ⟨0, ""⟩ ⟨false, 9⟩ compiled object ∧
      ∃ m, (Machine.initial "3").load object.bytes = .ok m ∧
        Agrees (State.start stmts "3") m := by
  have hScript : (Script.parseSource countdown).toOption.any (fun stmts =>
        Script.isScalar stmts &&
          decide (Script.DeclaredOutsideLoops stmts)) = true := by
    decide +kernel
  have hProgram : (compile ⟨0, ""⟩ countdown).toOption.any Compiled.fits = true := by
    decide +kernel
  rcases Result.any_eq_true.mp hScript with ⟨stmts, hParsed, hBoth⟩
  rcases Bool.and_eq_true_iff.mp hBoth with ⟨hScalar, hLoops⟩
  replace hLoops := of_decide_eq_true hLoops
  rcases exists_built ⟨0, ""⟩ nofun narrow hProgram with ⟨compiled, object, hCompiled, hBuilt⟩
  exact ⟨stmts, compiled, object, hParsed, hCompiled, hScalar, hLoops, hBuilt,
    compile_agrees hParsed hCompiled hScalar hLoops hBuilt "3"⟩

end Compile

end Pep9
