import Pep9.Proofs.Compile.Addressing
import Pep9.Proofs.Compile.Blocks

/-
  The discipline of control and of the stack in all generated
  code. The code is divided into the segments of its functions
  and the top level around them. Control stays in its part,
  and the bytes that are taken from the stack there depend
  only on the place.

  Key theorems: `Whole.stream_function`, `Whole.stream_top`,
  `compile_disciplined`.
-/

namespace Pep9

open List
open Listing (Instruction)
open Script (Stmt)

variable {name : String} {b : Binding} {code : Code} {ctx : Context}

namespace Compile

/- The state in which the first statement is compiled. -/
def startOf (options : Options) (stmts : List Stmt) : Except Error Generator := do
  let globals ← analyzeGlobals options.usual stmts
  let (bound, result) := allocateGlobals .empty globals.vars
  let _ ← result
  let g := Generator.start options.usual globals bound
  let (_, g₁) ← g.label landingStem g.landings
  return g₁

/- A place in the code that is in no function. -/
def TopLevel (compiled : Compiled) (k : Nat) : Prop :=
  k < compiled.program.code.length ∧ ∀ b ∈ compiled.table.labels, ∀ first last,
      Segment compiled.program.code b.target first last → ¬ (first ≤ k ∧ k < last)

/-
  Each function that a script defines has its segment, and
  there are no others. Each segment and the top level are
  streams, and between the statements of the top level no
  bytes are taken from the stack. Only numbers are added to
  the stack pointer.
-/
structure Disciplined (options : Options) (stmts : List Stmt) (compiled : Compiled) : Prop where
  defined : ∀ d ∈ definitions stmts, ∃ b ∈ compiled.table.labels, ∃ sig, b.source = d.name ∧
        analyzeFunction options.usual d.name d.params d.body = .ok sig ∧ (∃ first last,
          Segment compiled.program.code b.target first last) ∧ ∀ first last,
          Segment compiled.program.code b.target first last → Stream compiled.program.code
              (frameNames compiled.program.frames) (fun k => first ≤ k ∧ k < last) first
              (some sig.localsSize)
  functions : ∀ b ∈ compiled.table.labels, ∃ d ∈ definitions stmts, b.source = d.name
  apart : ∀ b ∈ compiled.table.labels, ∀ b' ∈ compiled.table.labels, ∀ first last first' last' k,
        Segment compiled.program.code b.target first last →
          Segment compiled.program.code b'.target first' last' →
            first ≤ k ∧ k < last → first' ≤ k ∧ k < last' → b = b'
  top : Stream compiled.program.code (frameNames compiled.program.frames) (TopLevel compiled) 0 none
  boundaries : ∃ g, startOf options stmts = .ok g ∧ ∀ k d, Boundary g stmts k →
        Path compiled.program.code 0 (k + 1) d → d = 0
  moves : ∀ i ∈ compiled.program.code, i.op = .known .subsp ∨ i.op = .known .addsp →
        ∃ bytes, i.operand = .number bytes ∧ i.mode = .immediate

section Programs

variable {options : Options} {stmts : List Stmt} {compiled : Compiled}
  {parts : Parts options .empty stmts compiled}

/-
  What is known of the layout of a whole program: it has the
  code of the program, flows to its end, and its functions
  are those of the program.
-/
structure Whole (parts : Parts options .empty stmts compiled) (layout : Layout) : Prop where
  code_eq : layout.code = compiled.program.code
  flows : Flows false 0 [] layout.chart none
  starts : layout.chart[0]? = some (some 0, mark parts.entry)
  functions : List.Forall₂ (Fits options.usual) (definitions stmts) layout.islands
  labels : compiled.table.labels = layout.islands.map Island.binding
  boundaries : ∀ k, Boundary parts.started stmts k → layout.Rests 0 (k + 1)

theorem Context.base_of_outside (h : ctx.function = none) : ctx.base = 0 := by
  unfold Context.base
  rw [h]
  rfl

theorem seated_ending {layout : Layout}
    (hSeated : Seated ctx layout)
    (hEnds : Closes stmts → Ends ctx layout) :
    Seated ctx (plot ctx.base (ending stmts)) ∧
      Ends ctx (layout ++ plot ctx.base (ending stmts)) := by
  unfold ending
  split
  · next hExit =>
    refine ⟨seated_nil ctx, ?_⟩
    rw [plot, append_nil]
    exact hEnds (.inr hExit)
  · have hStop : Sound ctx.function.isSome ctx.base ctx.base (.plain .stop) :=
      sound_stop ctx.base_nonneg
    rcases seated_of_end ctx.keeps_nil hStop rfl rfl with ⟨hLast, hEnd⟩
    exact ⟨hLast, hSeated.append_ends hEnd⟩

/- Every program has such a layout. -/
theorem exists_whole
    (hNamed : Script.WellNamed stmts)
    (parts : Parts options .empty stmts compiled) :
    ∃ layout, Whole parts layout := by
  have started := started_of_parts parts hNamed
  rcases grows_label started.known.ready isStem_landing parts.labelled with ⟨hEntry, _⟩
  have hSteady := (steady_label isStem_landing parts.labelled).1
  have hFunction : parts.started.context.function = none := by
    unfold Generator.context
    rw [hEntry.outside rfl]
  have hBase := Context.base_of_outside hFunction
  have hCalls : parts.started.context.Countable := by
    intro _ hSig
    rw [Generator.context_functions, hSteady.functions] at hSig
    cases hSig
  rcases parts.emits.laid hEntry.ready hNamed hCalls with ⟨_, layout, hLaid, _, hEnds, hPlaces⟩
  rcases seated_ending hLaid.seated hEnds with ⟨hLast, hEnd⟩
  have hSeated := hLaid.seated.append hLast
  have hFlows := hSeated.flows.relink hEnd.linked
  have hEnters := hEnd.enters
  rw [hFunction, hBase] at hFlows
  rw [hBase] at hEnters hLast hPlaces
  have hMark : Level false 0 0 [mark parts.entry] 0 := level_mark (Int.le_refl 0) _
  have hIslands : Layout.islands ([.own 0 (mark parts.entry)] ++ layout ++ plot 0 (ending stmts)) =
        layout.islands := by
    rw [Layout.islands_append, Layout.islands_append, plot_islands, append_nil]
    rfl
  refine ⟨[.own 0 (mark parts.entry)] ++ layout ++ plot 0 (ending stmts), ?_, ?_, rfl, ?_, ?_, ?_⟩
  · rw [Layout.code_append, Layout.code_append, plot_code, hLaid.code_eq, parts.code_eq]
    rfl
  · rw [append_assoc, Layout.chart_append]
    refine .append ?_ hFlows
    rw [hEnters]
    exact hMark.flows []
  · rw [hIslands]
    have hFunctions := hLaid.functions
    rw [hSteady.usual] at hFunctions
    exact hFunctions
  · rw [hIslands, parts.table_eq, hLaid.labels, hSteady.labels]
    change parts.bound.labels ++ _ = _
    rw [started.labels, nil_append]
  · intro k hK
    have hPlace := (hPlaces k hK).between [.own 0 (mark parts.entry)] (hBase ▸ hLast.enters)
    rwa [Nat.add_comm] at hPlace

/- What is branched to has a name. -/
theorem Facts.targets (facts : Facts parts) :
    ∀ i ∈ compiled.program.code, ∀ target,
      i.jumpsTo? = some target → target ≠ "" := by
  intro _ hI _ hJump
  rcases Instruction.jumpsTo?_eq_some hJump with ⟨_, hOp, hOperand, hForm, _⟩
  rcases facts.jump hI hOp hForm with ⟨_, hLabel, hSymbol⟩
  cases hOperand.symm.trans hSymbol
  exact (mem_labels.mp hLabel).1

theorem Facts.labels_nodup (facts : Facts parts) :
    (labels compiled.program.code).Nodup :=
  (nodup_append.mp (nodup_append.mp facts.supplies.nodup).2.1).1

variable {i : Instruction}

section

variable (facts : Facts parts) (hI : i ∈ compiled.program.code)
include facts hI

theorem Facts.known :
    ∃ m, i.op = .known m := by
  rcases facts.placed.of_mem hI with ⟨_, _, hPlaced⟩
  cases hPlaced with
  | jump => exact ⟨_, rfl⟩
  | use _ _ hUse => cases hUse <;> exact ⟨_, rfl⟩

/- A place of a frame is not branched to. -/
theorem Facts.framed
    (hName : name ∈ frameNames compiled.program.frames)
    (hOperand : i.operand = .symbol name) :
    ∃ m, i.op = .known m ∧ m.form ≠ .branch := by
  rcases facts.known hI with ⟨m, hOp⟩
  refine ⟨m, hOp, fun hForm => ?_⟩
  rcases facts.jump hI hOp hForm with ⟨_, hLabel, hSymbol⟩
  cases hOperand.symm.trans hSymbol
  exact facts.names_apart.2 name hName hLabel

end

/- A place in a function is in its segment. -/
theorem Around.segment {functions : Bindings} {before behind : Code}
    (h : Around functions name before behind)
    (hCode : code = before ++ i :: behind) :
    ∃ b ∈ functions, ∃ first last, Segment code b.target first last ∧
        first ≤ before.length ∧ before.length < last := by
  rcases h with ⟨b, hB, _, landing, outer, inner, rest, _, hBefore, rfl⟩
  have hLength : before.length = outer.length + 2 + inner.length := by
    rw [hBefore, length_append, length_append]
    rfl
  refine ⟨b, hB, outer.length + 1, (before ++ i :: rest).length,
    ⟨?_, landing, outer.length, rfl, ?_, ?_⟩, by omega, ?_⟩
  · rw [hCode, hBefore]
    simp [append_assoc]
  · rw [hCode, hBefore]
    simp [append_assoc]
  · rw [hCode, ← cons_append, ← append_assoc,
      getElem?_append_right (Nat.le_refl _), Nat.sub_self]
    rfl
  · rw [length_append, length_cons]
    omega

/- The code around the instruction at a place. -/
theorem code_split {k : Nat}
    (h : code[k]? = some i) :
    code = code.take k ++ i :: code.drop (k + 1) ∧ (code.take k).length = k := by
  rcases List.getElem?_eq_some_iff.mp h with ⟨hK, hI⟩
  refine ⟨?_, length_take_of_le hK.le⟩
  rw [← hI, getElem_cons_drop, take_append_drop]

namespace Whole

variable {layout before behind : Layout} {f : Island}

theorem exists_island
    (whole : Whole parts layout)
    (hB : b ∈ compiled.table.labels) :
    ∃ (f : Island) (before behind : Layout),
      layout = before ++ .island f :: behind ∧ b = f.binding := by
  rw [whole.labels] at hB
  rcases mem_map.mp hB with ⟨f, hF, hEq⟩
  rcases append_of_mem (Layout.mem_islands.mp hF) with ⟨before, behind, hSplit⟩
  exact ⟨f, before, behind, hSplit, hEq.symm⟩

theorem mem_labels
    (whole : Whole parts layout)
    (hLayout : layout = before ++ .island f :: behind) :
    f.binding ∈ compiled.table.labels := by
  rw [whole.labels]
  refine mem_map_of_mem (Layout.mem_islands.mpr ?_)
  rw [hLayout]
  exact mem_append_right _ mem_cons_self

variable {first last k : Nat}

variable (whole : Whole parts layout)
include whole

section

variable (facts : Facts parts) {d : Int}
include facts

theorem segment_iff (hLayout : layout = before ++ .island f :: behind) :
    Segment compiled.program.code f.label first last ↔ first = before.code.length + 1 ∧
        last = before.code.length + 1 + f.inner.length := by
  have hHere : Segment (Layout.code (before ++ .island f :: behind)) f.label
        (before.code.length + 1) (before.code.length + 1 + f.inner.length) := Layout.segment
  rw [← hLayout, whole.code_eq] at hHere
  have hLabel := facts.functions _ (whole.mem_labels hLayout)
  constructor
  · intro hSegment
    exact hSegment.unique hHere facts.labels_nodup facts.targets (Compile.mem_labels.mp hLabel).1
  · rintro ⟨rfl, rfl⟩
    exact hHere

/- The code of a function is a stream of its own. -/
theorem stream_function
    (hLayout : layout = before ++ .island f :: behind)
    (hSegment : Segment compiled.program.code f.label first last) :
    Stream compiled.program.code (frameNames compiled.program.frames)
      (fun k => first ≤ k ∧ k < last) first (some f.sig.localsSize) := by
  have hCode : Layout.code (before ++ .island f :: behind) =
        compiled.program.code :=
    hLayout ▸ whole.code_eq
  have hCharted := Layout.charted_island (hCode ▸ facts.labels_nodup) (hCode ▸ facts.targets)
  rw [hCode] at hCharted
  have hLength : (before.code ++ [Instruction.jump .br f.landing]).length =
        before.code.length + 1 := by
    rw [length_append, length_singleton]
  have hInner : f.inner.length = f.chart.length := length_map _
  rcases (whole.segment_iff facts hLayout).mp hSegment with ⟨rfl, rfl⟩
  have hStart : (Chart.foreign (before.code ++ [.jump .br f.landing]) ++ f.chart
          ++ Chart.foreign (mark f.landing :: behind.code))[ before.code.length + 1]? =
        some (some 0, mark f.label) := by
    rw [append_assoc, getElem?_append_right (by rw [Chart.length_foreign]; omega),
      Chart.length_foreign, hLength, Nat.sub_self,
      getElem?_append_left (List.getElem?_eq_some_iff.mp f.starts).1]
    exact f.starts
  refine hCharted.stream hStart ?_ ?_ ?_
  · intro _ hSize
    cases hSize
    rfl
  · intro _
    rw [← hLength, hInner]
    exact Chart.between_foreign f.solid
  · intro _ _ _ hAt _ hName hOperand
    exact ⟨rfl, facts.framed (mem_of_getElem? (hCharted.at_code hAt)) hName hOperand⟩

theorem charted :
    Charted compiled.program.code false 0 layout.chart where
  code_eq := whole.code_eq
  labels := facts.labels_nodup
  targets := facts.targets
  flows := whole.flows

/- The chart has levels at the top level and nowhere else. -/
theorem topLevel_iff (k : Nat) :
    TopLevel compiled k ↔ ∃ d i, layout.chart[k]? = some (some d, i) := by
  have hLength : compiled.program.code.length = layout.chart.length := by
    rw [← whole.code_eq]
    exact length_map _
  constructor
  · rintro ⟨hK, hOutside⟩
    rw [hLength] at hK
    rcases hEntry : layout.chart[k] with ⟨level, i⟩
    have hAt : layout.chart[k]? = some (level, i) := by
      rw [getElem?_eq_getElem hK, hEntry]
    cases level with
    | some d => exact ⟨d, i, hAt⟩
    | none =>
      rcases Layout.exists_of_foreign hAt with ⟨_, _, _, hLayout, hLow, hHigh⟩
      exact absurd ⟨hLow, hHigh⟩ (hOutside _ (whole.mem_labels hLayout) _ _
          ((whole.segment_iff facts hLayout).mpr ⟨rfl, rfl⟩))
  · rintro ⟨_, _, hAt⟩
    refine ⟨?_, ?_⟩
    · rw [hLength]
      exact (List.getElem?_eq_some_iff.mp hAt).1
    · rintro _ hB _ _ hSegment ⟨hLow, hHigh⟩
      rcases whole.exists_island hB with ⟨f, before, behind, hLayout, rfl⟩
      rcases (whole.segment_iff facts hLayout).mp hSegment with ⟨rfl, rfl⟩
      have hForeign : ∃ j, (Layout.chart (before ++ .island f :: behind))[k]? = some (none, j) :=
        Layout.foreign_of_island hLow hHigh
      rcases hForeign with ⟨_, hJ⟩
      rw [← hLayout, hAt] at hJ
      cases hJ

/- No place of a frame is used at the top level. -/
theorem not_framed
    (hAt : layout.chart[k]? = some (some d, i))
    (hName : name ∈ frameNames compiled.program.frames) :
    i.operand ≠ .symbol name := by
  intro hOperand
  rcases mem_flatMap.mp hName with ⟨_, hFrame, hMem⟩
  rcases mem_map.mp hMem with ⟨_, hDecl, rfl⟩
  have hCode := (whole.charted facts).at_code hAt
  rcases code_split hCode with ⟨hSplit, hLength⟩
  have hAround := (facts.addressed_frame hSplit hFrame hDecl hOperand).1
  rcases hAround.segment hSplit with ⟨b, hB, first, last, hSegment, hLow, hHigh⟩
  rw [hLength] at hLow hHigh
  exact ((whole.topLevel_iff facts k).mpr ⟨d, i, hAt⟩).2 b hB first last hSegment ⟨hLow, hHigh⟩

theorem stream_top :
    Stream compiled.program.code (frameNames compiled.program.frames)
      (TopLevel compiled) 0 none := by
  have hCharted : Charted compiled.program.code (none : Option Int64).isSome 0 layout.chart :=
    whole.charted facts
  refine hCharted.stream whole.starts nofun (whole.topLevel_iff facts) ?_
  intro _ _ _ hAt _ hName hOperand
  exact absurd hOperand (whole.not_framed facts hAt hName)

/- The segments of two functions are apart. -/
theorem apart {b' : Binding} {first' last' : Nat}
    (hB : b ∈ compiled.table.labels)
    (hB' : b' ∈ compiled.table.labels)
    (hSegment : Segment compiled.program.code b.target first last)
    (hSegment' : Segment compiled.program.code b'.target first' last')
    (hK : first ≤ k ∧ k < last)
    (hK' : first' ≤ k ∧ k < last') :
    b = b' := by
  rcases whole.exists_island hB with ⟨_, _, _, hLayout, rfl⟩
  rcases whole.exists_island hB' with ⟨_, _, _, hLayout', rfl⟩
  rcases (whole.segment_iff facts hLayout).mp hSegment with ⟨rfl, rfl⟩
  rcases (whole.segment_iff facts hLayout').mp hSegment' with ⟨rfl, rfl⟩
  rcases Layout.le_of_islands (hLayout.symm.trans hLayout') with rfl | hBefore | hBehind
  · rfl
  · omega
  · omega

/- Between statements no bytes are taken from the stack. -/
theorem boundary
    (hK : Boundary parts.started stmts k)
    (hPath : Path compiled.program.code 0 (k + 1) d) :
    d = 0 := by
  rcases (whole.charted facts).path whole.starts hPath with ⟨_, hAt⟩
  rcases whole.boundaries k hK with ⟨before, behind, hLayout, hLength, hEntry⟩
  have hBefore : before.chart.length = k + 1 := by
    rw [← hLength]
    exact (length_map _).symm
  rw [hLayout, Layout.chart_append,
    getElem?_append_right (by omega), hBefore, Nat.sub_self] at hAt
  cases hChart : behind.chart with
  | nil =>
    rw [hChart] at hAt
    cases hAt
  | cons =>
    rw [hChart] at hAt hEntry
    cases hAt
    cases hEntry
    rfl

end

/- Only numbers are added to the stack pointer. -/
theorem moves
    (hI : i ∈ compiled.program.code)
    (hMove : i.op = .known .subsp ∨ i.op = .known .addsp) :
    ∃ bytes, i.operand = .number bytes ∧ i.mode = .immediate := by
  rw [← whole.code_eq] at hI
  rcases Layout.mem_code hI with ⟨d, hMem⟩ | ⟨f, _, d, hMem⟩
  · exact (whole.flows.sound d i hMem).moves hMove
  · exact (f.flows.sound d i hMem).moves hMove

theorem island_of_definition {d : Definition}
    (hD : d ∈ definitions stmts) :
    ∃ f ∈ layout.islands, Fits options.usual d f := by
  rcases forall₂_iff_get.mp whole.functions with ⟨hLength, hFits⟩
  rcases mem_iff_get.mp hD with ⟨⟨n, hN⟩, rfl⟩
  exact ⟨_, get_mem _ ⟨n, hLength ▸ hN⟩, hFits n hN (hLength ▸ hN)⟩

theorem definition_of_island (hF : f ∈ layout.islands) :
    ∃ d ∈ definitions stmts, Fits options.usual d f := by
  rcases forall₂_iff_get.mp whole.functions with ⟨hLength, hFits⟩
  rcases mem_iff_get.mp hF with ⟨⟨n, hN⟩, rfl⟩
  exact ⟨_, get_mem _ ⟨n, hLength.symm ▸ hN⟩, hFits n (hLength.symm ▸ hN) hN⟩

theorem disciplined
    (facts : Facts parts)
    (hStart : startOf options stmts = .ok parts.started) :
    Disciplined options stmts compiled where
  defined := by
    intro _ hD
    rcases whole.island_of_definition hD with ⟨f, hF, hFits⟩
    rcases append_of_mem (Layout.mem_islands.mp hF) with ⟨_, _, hLayout⟩
    refine ⟨f.binding, whole.mem_labels hLayout, f.sig, hFits.name_eq, hFits.analyzed, ?_, ?_⟩
    · exact ⟨_, _, (whole.segment_iff facts hLayout).mpr ⟨rfl, rfl⟩⟩
    · intro _ _ hSegment
      exact whole.stream_function facts hLayout hSegment
  functions := by
    intro _ hB
    rcases whole.exists_island hB with ⟨f, _, _, hLayout, rfl⟩
    have hF : f ∈ layout.islands := by
      rw [Layout.mem_islands, hLayout]
      exact mem_append_right _ mem_cons_self
    rcases whole.definition_of_island hF with ⟨d, hD, hFits⟩
    exact ⟨d, hD, hFits.name_eq⟩
  apart := by
    intro _ hB _ hB' _ _ _ _ _
    exact whole.apart facts hB hB'
  top := whole.stream_top facts
  boundaries := ⟨parts.started, hStart, fun _ _ => whole.boundary facts⟩
  moves := fun i => whole.moves

end Whole

/- The parts of a program, with the state in which it starts. -/
theorem generate_starts (h : generate options .empty stmts = .ok compiled) :
    ∃ parts : Parts options .empty stmts compiled, startOf options stmts = .ok parts.started := by
  rcases generate_allocated h with ⟨parts, hAllocated⟩
  refine ⟨parts, ?_⟩
  unfold startOf
  simp only [bind, Except.bind, parts.analyzed, hAllocated, parts.labelled]
  rfl

end Programs

/-
  The code of every source text that compiles is disciplined:
  control stays in the part in which it is, and the bytes that
  it has taken from the stack depend only on the place.
-/
theorem compile_disciplined {options : Options} {source : String}
    {compiled : Compiled}
    (h : compile options source = .ok compiled) :
    ∃ stmts,
      Script.parseSource source = .ok stmts ∧ Disciplined options stmts compiled := by
  rcases compile_generate h with ⟨stmts, hParsed, hGenerated⟩
  have hNamed := Script.parseSource_wellNamed hParsed
  rcases generate_starts hGenerated with ⟨parts, hStart⟩
  rcases exists_whole hNamed parts with ⟨_, whole⟩
  exact ⟨stmts, hParsed, whole.disciplined (facts_of_parts parts hNamed) hStart⟩

/-
  A function in a conditional that returns from a loop, and
  whose value is used in a sum.
-/
def searching : String :=
  "if 1 < 2:\n    def f(n, a_):\n        k = 0\n"
    ++ "        while k < n:\n            if a_[k] == 0:\n"
    ++ "                return k\n            k = k + 1\n"
    ++ "        return n\nv_ = [0] * 4\nx = f(2, v_) + 1\n"

theorem compile_disciplined_searching :
    ∃ compiled, compile ⟨0, ""⟩ searching = .ok compiled ∧
      ∃ stmts, Script.parseSource searching = .ok stmts ∧
        Disciplined ⟨0, ""⟩ stmts compiled := by
  refine (Result.isOk_eq_true.mp ?_).imp fun _ h => ⟨h, compile_disciplined h⟩
  decide +kernel

end Compile

end Pep9
