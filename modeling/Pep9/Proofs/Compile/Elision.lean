import Pep9.Proofs.Compile.Correctness

/-
  First assignments of declared values. The declaration of a
  variable has the literal of its first assignment, which is
  therefore not compiled. Here it is compared with a program
  in which every assignment to a variable is stored.

  Key theorems: `ScalarScript.stores`,
  `compile_storing_agrees`.
-/

namespace Pep9

open List
open Script (State Stmt parseSource isScalar DeclaredOutsideLoops)

/-
  Two machines print the same, and halt, fail on the input or
  run for ever together.
-/
structure Machine.SameRuns (m m' : Machine) : Prop where
  halts : ∀ output, m.Halts output ↔ m'.Halts output
  fails : ∀ fault output, m.Fails fault output ↔ m'.Fails fault output
  forever : m.RunsForever ↔ m'.RunsForever
  prints : ∀ text, m.Prints text ↔ m'.Prints text

namespace Compile

/- Machines that agree with one interpreter run alike. -/
theorem Agrees.sameRuns {s : State} {m m' : Machine}
    (h : Agrees s m)
    (h' : Agrees s m') :
    m.SameRuns m' where
  halts := fun output => (h.halts output).symm.trans (h'.halts output)
  fails := fun fault output => (h.fails fault output).symm.trans (h'.fails fault output)
  forever := h.forever.symm.trans h'.forever
  prints := fun text => (h.prints text).symm.trans (h'.prints text)

/- Whether a variable is declared with its first value. -/
def Storage.isValue : Storage → Bool
  | value _ => true
  | _ => false

/- The targets of the variables with a declared value. -/
def Globals.valueTargets (g : Globals) (table : SymbolTable) : List String :=
  (g.vars.filter fun v => v.storage.isValue).map
    fun v => ((table.lookup? v.name).map Binding.target).getD ""

/- A table in which some targets have no mark. -/
def SymbolTable.unmarkAll (t : SymbolTable) (targets : List String) : SymbolTable :=
  { t with special := t.special.filter (· ∉ targets) }

/-
  Compiles the statements of a script with a store for each
  assignment to a variable, also for the first one.
-/
def generateStoring (options : Options) (table : SymbolTable)
    (stmts : List Stmt) : Except Error Compiled := do
  let globals ← analyzeGlobals options.usual stmts
  let (bound, result) := allocateGlobals table globals.vars
  let data ← result
  let unmarked := bound.unmarkAll (globals.valueTargets bound)
  generateFrom options globals unmarked data stmts

/- Compiles a source text in this way. -/
def compileStoring (options : Options) (source : String) : Except Failure Compiled :=
  match parseSource source with
  | .error e => .error (.source e)
  | .ok stmts => (generateStoring options .empty stmts).mapError .script

variable {compiled : Compiled} {options : Options} {source : String}

/- Its parts are those of a program with fewer marks. -/
theorem generateStoring_emits {table : SymbolTable} {stmts : List Stmt}
    (h : generateStoring options table stmts = .ok compiled) :
    ∃ parts : Parts options table stmts compiled, ∀ target ∈ parts.bound.special,
        target ∉ parts.globals.valueTargets parts.bound := by
  rcases Result.seq h with ⟨globals, hGlobals, h₁⟩
  rcases hPair : allocateGlobals table globals.vars with ⟨bound, _⟩
  rw [hPair] at h₁
  rcases Result.seq h₁ with ⟨data, hData, h₂⟩
  have hAllocated : allocateGlobals table globals.vars =
        ({ bound.unmarkAll (globals.valueTargets bound) with
            special := bound.special }, .ok data) := by
    rw [hPair, hData]
    rfl
  rcases generateFrom_emits hGlobals hAllocated
    (fun target hTarget => (mem_filter.mp hTarget).1) h₂ with ⟨parts, hParts, hBound⟩
  refine ⟨parts, fun target hTarget => ?_⟩
  rw [hBound] at hTarget
  rw [hParts, hBound]
  exact of_decide_eq_true (mem_filter.mp hTarget).2

theorem compileStoring_generate
    (h : compileStoring options source = .ok compiled) :
    ∃ stmts, parseSource source = .ok stmts ∧
        generateStoring options .empty stmts = .ok compiled := by
  unfold compileStoring at h
  split at h
  · cases h
  · next stmts hParse =>
    exact ⟨stmts, hParse, Result.mapError_eq_ok.mp h⟩

section Parts

variable {stmts : List Stmt}
  {parts : Parts options .empty stmts compiled}

/- Where values have no mark, only constants are not stored. -/
theorem ScalarScript.stores {x : String}
    (h : ScalarScript parts)
    (hMarks :
      ∀ target ∈ parts.bound.special, target ∉ parts.globals.valueTargets parts.bound)
    (hPending : parts.started.pending x) :
    isConstantName x = true := by
  rcases h.marked hPending with ⟨_, v, hSite, hMark, hStorage⟩
  have hFits := hSite.fits
  cases hKind : v.storage with
  | uninitialized => exact absurd hKind hStorage
  | constant =>
    rw [hKind] at hFits
    exact hFits
  | value =>
    refine absurd ?_ (hMarks _ hMark)
    have hLookup := h.facts.lookup hSite.mem
    refine mem_map.mpr ⟨v, mem_filter.mpr ⟨hSite.var, ?_⟩, ?_⟩
    · rw [hKind]
      rfl
    · rw [hSite.name, hLookup]
      rfl
  | array =>
    have hScalar := (h.surveyed.declared hSite.var).2.1
    rw [hKind] at hScalar
    cases hScalar

end Parts

theorem scalarScript_of_compileStoring {stmts : List Stmt}
    (hParsed : parseSource source = .ok stmts)
    (hStoring : compileStoring options source = .ok compiled)
    (hScalar : isScalar stmts = true)
    (hLoops : DeclaredOutsideLoops stmts) :
    ∃ parts : Parts options .empty stmts compiled, ScalarScript parts := by
  rcases compileStoring_generate hStoring with ⟨_, hSame, hGenerated⟩
  cases hParsed.symm.trans hSame
  rcases generateStoring_emits hGenerated with ⟨parts, _⟩
  have hNamed := Script.parseSource_wellNamed hParsed
  exact ⟨parts, facts_of_parts parts hNamed, hNamed, hScalar, hLoops⟩

/-
  In a script without functions and arrays, where no variable
  is first set to a literal inside a loop, it makes no
  difference that such assignments are not compiled.
-/
theorem compile_storing_agrees {options : Options} {source : String}
    {stmts : List Stmt} {compiled storing : Compiled} {layout : Listing.Layout}
    {object object' : Assembly.Object}
    (hParsed : parseSource source = .ok stmts)
    (hCompiled : compile options source = .ok compiled)
    (hStoring : compileStoring options source = .ok storing)
    (hScalar : isScalar stmts = true)
    (hLoops : DeclaredOutsideLoops stmts)
    (hBuilt : Built options layout compiled object)
    (hBuilt' : Built options layout storing object')
    (input : String) :
    ∃ m m',
      (Machine.initial input).load object.bytes = .ok m ∧
      (Machine.initial input).load object'.bytes = .ok m' ∧
      m.SameRuns m' := by
  rcases scalarScript_of_compile hParsed hCompiled hScalar hLoops with ⟨_, hScript⟩
  rcases scalarScript_of_compileStoring hParsed hStoring hScalar hLoops with ⟨_, hScript'⟩
  rcases hScript.runs hBuilt input with ⟨m, hLoad, hAgrees⟩
  rcases hScript'.runs hBuilt' input with ⟨m', hLoad', hAgrees'⟩
  exact ⟨m, m', hLoad, hLoad', hAgrees.sameRuns hAgrees'⟩

/- A variable that is printed as it is declared. -/
def announced : String := "x = 5\nprint(x)\n"

theorem compile_storing_agrees_once :
    ∃ stmts compiled storing object object',
      parseSource announced = .ok stmts ∧ compile ⟨0, ""⟩ announced = .ok compiled ∧
      compileStoring ⟨0, ""⟩ announced = .ok storing ∧ isScalar stmts = true ∧
      DeclaredOutsideLoops stmts ∧
      Built ⟨0, ""⟩ ⟨false, 9⟩ compiled object ∧
      Built ⟨0, ""⟩ ⟨false, 9⟩ storing object' ∧
      ∃ m m',
        (Machine.initial "").load object.bytes = .ok m ∧
        (Machine.initial "").load object'.bytes = .ok m' ∧
        m.SameRuns m' := by
  have hScript : (parseSource announced).toOption.any (fun stmts =>
        isScalar stmts &&
          decide (DeclaredOutsideLoops stmts)) = true := by
    decide +kernel
  have hProgram : (compile ⟨0, ""⟩ announced).toOption.any Compiled.fits = true := by
    decide +kernel
  have hStored : (compileStoring ⟨0, ""⟩ announced).toOption.any Compiled.fits = true := by
    decide +kernel
  rcases Result.any_eq_true.mp hScript with ⟨stmts, hParsed, hBoth⟩
  rcases Bool.and_eq_true_iff.mp hBoth with ⟨hScalar, hLoops⟩
  replace hLoops := of_decide_eq_true hLoops
  rcases exists_built ⟨0, ""⟩ nofun narrow hProgram with ⟨compiled, object, hCompiled, hBuilt⟩
  rcases exists_built ⟨0, ""⟩ nofun narrow hStored with ⟨storing, object', hStoring, hBuilt'⟩
  exact ⟨stmts, compiled, storing, object, object', hParsed, hCompiled,
    hStoring, hScalar, hLoops, hBuilt, hBuilt',
    compile_storing_agrees hParsed hCompiled hStoring hScalar hLoops hBuilt hBuilt' ""⟩

/- Whether a script halts within some steps with some output. -/
def haltsWith (steps : Nat) (output : String) (stmts : List Stmt) : Bool :=
  let last := (State.start stmts "").run steps
  isScalar stmts && decide (DeclaredOutsideLoops stmts) &&
    decide (last.2 = some .halted) && decide (last.1.output = output)

/-
  A program halts with the output of a script if it is the
  same as the program of the script.
-/
theorem halts_of_program {output : String} {steps : Nat}
    {result : Except Failure Compiled} {program : Compiled}
    {object : Assembly.Object}
    (hScript : (parseSource source).toOption.any (haltsWith steps output) = true)
    (hSame :
      result.toOption.all (fun program =>
        (compile ⟨0, ""⟩ source).toOption.any (fun compiled =>
          decide (compiled.program = program.program))) = true)
    (hResult : result = .ok program)
    (hBuilt : Built ⟨0, ""⟩ ⟨false, 9⟩ program object) :
    ∃ m, (Machine.initial "").load object.bytes = .ok m ∧ m.Halts output := by
  subst hResult
  rcases Result.any_eq_true.mp hScript with ⟨stmts, hParsed, hAll⟩
  rcases Result.any_eq_true.mp hSame with ⟨compiled, hCompiled, hProgram⟩
  unfold haltsWith at hAll
  simp only [Bool.and_eq_true, decide_eq_true_eq] at hAll
  rcases hAll with ⟨⟨⟨hScalar, hLoops⟩, hHalted⟩, hOutput⟩
  have hSource : Built ⟨0, ""⟩ ⟨false, 9⟩ compiled object :=
    ⟨hBuilt.header, of_decide_eq_true hProgram ▸ hBuilt.assembled, hBuilt.size⟩
  rcases scalarScript_of_compile hParsed hCompiled hScalar hLoops with ⟨_, hScript⟩
  rcases hScript.runs hSource "" with ⟨m, hLoad, hAgrees⟩
  have hEnds : (State.start stmts "").Ends .halted output :=
    ⟨steps, _, Prod.ext rfl hHalted, hOutput⟩
  exact ⟨m, hLoad, (hAgrees.halts output).mp hEnds⟩

/- A variable that is set in each round of a loop. -/
def repeated : String :=
  "i = 0\nwhile i < 2:\n    x = 5\n    print(x)\n    x = 7\n" ++ "    i = i + 1\n"

/- The same, set once before the loop. -/
def once : String :=
  "i = 0\nx = 5\nwhile i < 2:\n    print(x)\n    x = 7\n" ++ "    i = i + 1\n"

/- The same, set both before the loop and in each round. -/
def again : String :=
  "i = 0\nx = 5\ni = 0\nwhile i < 2:\n    x = 5\n    print(x)\n" ++ "    x = 7\n    i = i + 1\n"

theorem repeated_fits :
    (compile ⟨0, ""⟩ repeated).toOption.any Compiled.fits = true := by
  decide +kernel

theorem repeated_storing_fits :
    (compileStoring ⟨0, ""⟩ repeated).toOption.any Compiled.fits = true := by
  decide +kernel

/- Without stores, the program is that of one assignment. -/
theorem repeated_eq_once :
    (compile ⟨0, ""⟩ repeated).toOption.all (fun program =>
      (compile ⟨0, ""⟩ once).toOption.any (fun compiled =>
        decide (compiled.program = program.program))) = true := by
  decide +kernel

/- With stores, it is that of an assignment in each round. -/
theorem repeated_storing_eq_again :
    (compileStoring ⟨0, ""⟩ repeated).toOption.all (fun program =>
      (compile ⟨0, ""⟩ again).toOption.any (fun compiled =>
        decide (compiled.program = program.program))) = true := by
  decide +kernel

/-
  Where the first assignment of a literal is inside a loop, it
  is left out in every round, and the program prints what it
  would not print otherwise.
-/
theorem elision_in_loop :
    ∃ compiled storing object object' m m',
      compile ⟨0, ""⟩ repeated = .ok compiled ∧
      compileStoring ⟨0, ""⟩ repeated = .ok storing ∧
      Built ⟨0, ""⟩ ⟨false, 9⟩ compiled object ∧
      Built ⟨0, ""⟩ ⟨false, 9⟩ storing object' ∧
      (Machine.initial "").load object.bytes = .ok m ∧
      (Machine.initial "").load object'.bytes = .ok m' ∧
      m.Halts "57" ∧ m'.Halts "55" := by
  have hOnce : (parseSource once).toOption.any (haltsWith 20 "57") =
        true := by
    decide +kernel
  have hAgain : (parseSource again).toOption.any (haltsWith 20 "55") =
        true := by
    decide +kernel
  rcases exists_built ⟨0, ""⟩ nofun narrow repeated_fits with ⟨compiled, object, hCompiled, hBuilt⟩
  rcases exists_built ⟨0, ""⟩ nofun narrow repeated_storing_fits with
    ⟨storing, object', hStoring, hBuilt'⟩
  rcases halts_of_program hOnce repeated_eq_once hCompiled hBuilt with ⟨m, hLoad, hHalts⟩
  rcases halts_of_program hAgain repeated_storing_eq_again hStoring
    hBuilt' with ⟨m', hLoad', hHalts'⟩
  exact ⟨compiled, storing, object, object', m, m', hCompiled, hStoring,
    hBuilt, hBuilt', hLoad, hLoad', hHalts, hHalts'⟩

end Compile

end Pep9
