import Pep9.Proofs.Compile.Placement

/-
  What holds of a whole compiled program: its names, its
  globals and the places of its instructions.

  Key theorems: `Facts.variable`, `facts_of_parts`.
-/

namespace Pep9

open List
open Listing (Declaration Program)
open Script (Stmt)

namespace Compile

variable {b : Binding}

namespace Allocated

variable {vars : List Global} {bindings : Bindings} {decls : List Declaration}

variable (h : Allocated vars bindings decls)
include h

theorem sources :
    bindings.map Binding.source = vars.map Global.name := by
  induction h with
  | nil => rfl
  | cons _ ih => rw [map_cons, map_cons, ih]

theorem targets :
    bindings.map Binding.target = decls.map Declaration.name := by
  induction h with
  | nil => rfl
  | cons _ ih => rw [map_cons, map_cons, ih, Storage.declaration_name]

/- A binding belongs to a variable, which it declares. -/
theorem of_binding (hB : b ∈ bindings) :
    ∃ v ∈ vars, b = ⟨v.name, b.target, .data, .global⟩ ∧
        v.storage.declaration b.target ∈ decls := by
  induction h with
  | nil => cases hB
  | cons _ ih =>
    rcases mem_cons.mp hB with rfl | hB
    · exact ⟨_, mem_cons_self, rfl, mem_cons_self⟩
    · rcases ih hB with ⟨v, hV, hEq, hDecl⟩
      exact ⟨v, mem_cons_of_mem _ hV, hEq, mem_cons_of_mem _ hDecl⟩

end Allocated

/- The names of a program: its storage, its labels, its frames. -/
def names (p : Program) : List String :=
  p.data.map Declaration.name ++ (labels p.code ++ frameNames p.frames)

section Parts

variable {options : Options} {stmts : List Stmt} {compiled : Compiled}

def Parts.arrays (parts : Parts options .empty stmts compiled) : List String :=
  parts.globals.arrayTargets parts.bound

abbrev Parts.outlook (parts : Parts options .empty stmts compiled) : Outlook where
  globals := parts.bound.data
  arrays := parts.arrays
  frames := compiled.program.frames
  functions := compiled.table.labels
  sigs := parts.final.functions
  usual := options.usual

/-
  What is known of a whole program. Its instructions are
  placed at the top level, or in a function around them.
-/
structure Facts (parts : Parts options .empty stmts compiled) : Prop where
  wellformed : parts.globals.Wellformed
  allocated : Allocated parts.globals.vars parts.bound.data compiled.program.data
  supplies : Supplies .empty compiled.table (names compiled.program)
  data : compiled.table.data = parts.bound.data
  entry : compiled.program.entry ∈ labels compiled.program.code
  functions : ∀ b ∈ compiled.table.labels, b.target ∈ labels compiled.program.code
  placed : Everywhere (Placed parts.outlook none) compiled.program.code

variable {parts : Parts options .empty stmts compiled}

/- A binding of the top level and its variable. -/
structure Variable (parts : Parts options .empty stmts compiled) (b : Binding)
    (v : Global) : Prop where
  mem : v ∈ parts.globals.vars
  binding : b = ⟨v.name, b.target, .data, .global⟩
  fits : v.storage.Fits v.name
  declared : v.storage.declaration b.target ∈ compiled.program.data
  array : b.target ∈ parts.arrays ↔ v.storage.isArray = true

section

variable (facts : Facts parts)
include facts

theorem Facts.data_nodup :
    (compiled.program.data.map Declaration.name).Nodup :=
  (nodup_append.mp facts.supplies.nodup).1

/- The names of storage, labels and frames are apart. -/
theorem Facts.names_apart :
    (∀ n ∈ compiled.program.data.map Declaration.name,
      n ∉ labels compiled.program.code ∧ n ∉ frameNames compiled.program.frames) ∧
    ∀ n ∈ frameNames compiled.program.frames, n ∉ labels compiled.program.code := by
  rcases nodup_append.mp facts.supplies.nodup with ⟨_, hRest, hApart⟩
  refine ⟨fun n hN => ⟨fun hLabel => ?_, fun hFrame => ?_⟩, fun n hN hLabel => ?_⟩
  · exact hApart n hN n (mem_append_left _ hLabel) rfl
  · exact hApart n hN n (mem_append_right _ hFrame) rfl
  · exact (nodup_append.mp hRest).2.2 n hLabel n hN rfl

/- A name has one declaration among the globals. -/
theorem Facts.declaration_eq {d d' : Declaration}
    (hD : d ∈ compiled.program.data)
    (hD' : d' ∈ compiled.program.data)
    (hName : d.name = d'.name) :
    d = d' := inj_on_of_nodup_map facts.data_nodup hD hD' hName

theorem Facts.lookup (hB : b ∈ parts.bound.data) :
    parts.bound.lookup? b.source = some b := by
  refine Bindings.find_of_mem ?_ hB
  rw [facts.allocated.sources]
  exact facts.wellformed.nodup

theorem Facts.mem_arrays {v : Global}
    (hB : b ∈ parts.bound.data)
    (hV : v ∈ parts.globals.vars)
    (hSource : b.source = v.name) :
    b.target ∈ parts.arrays ↔ v.storage.isArray = true := by
  have hTargets : (parts.bound.data.map Binding.target).Nodup := by
    rw [facts.allocated.targets]
    exact facts.data_nodup
  constructor
  · intro hMem
    rcases mem_map.mp hMem with ⟨v', hV', hTarget⟩
    rcases mem_filter.mp hV' with ⟨hVar, hArray⟩
    -- The array has a binding with the same target.
    have hName : v'.name ∈ parts.bound.data.map Binding.source := by
      rw [facts.allocated.sources]
      exact mem_map_of_mem hVar
    rcases mem_map.mp hName with ⟨_, hB', hSource'⟩
    rw [← hSource', facts.lookup hB'] at hTarget
    have hSame := inj_on_of_nodup_map hTargets hB' hB hTarget
    have hVars : v' = v := by
      refine inj_on_of_nodup_map facts.wellformed.nodup hVar hV ?_
      rw [← hSource', ← hSource, hSame]
    exact hVars ▸ hArray
  · intro hArray
    refine mem_map.mpr ⟨v, mem_filter.mpr ⟨hV, hArray⟩, ?_⟩
    rw [← hSource, facts.lookup hB]
    rfl

theorem Facts.variable (hB : b ∈ parts.bound.data) :
    ∃ v, Variable parts b v := by
  rcases facts.allocated.of_binding hB with ⟨v, hV, hEq, hDecl⟩
  refine ⟨v, hV, hEq, facts.wellformed.fits v hV, hDecl, ?_⟩
  exact facts.mem_arrays hB hV (congrArg Binding.source hEq)

end

/- The code at the end of a program. -/
def ending (stmts : List Stmt) : Code :=
  if endsWithExit stmts then [] else [.plain .stop]

theorem ending_unlabelled (stmts : List Stmt) : labels (ending stmts) = [] := by
  unfold ending
  split <;> rfl

theorem Parts.code_eq (parts : Parts options .empty stmts compiled) :
    compiled.program.code =
      [mark parts.entry] ++ parts.code ++ ending stmts :=
  congrArg Program.code parts.program

theorem Parts.frames_eq (parts : Parts options .empty stmts compiled) :
    compiled.program.frames = parts.final.frames := congrArg Program.frames parts.program

/- The state in which the statements are compiled. -/
structure Started (parts : Parts options .empty stmts compiled) : Prop where
  data : Supplies .empty parts.bound (compiled.program.data.map Declaration.name)
  allocated : Allocated parts.globals.vars parts.bound.data compiled.program.data
  known : Known parts.outlook (Generator.start options.usual parts.globals parts.bound)
  labels : parts.bound.labels = []

variable (hNamed : Script.WellNamed stmts)
include hNamed

variable (parts)
include parts

theorem started_of_parts : Started parts := by
  have hWellformed := analyzeGlobals_wellformed hNamed parts.analyzed
  rcases AllotsGlobals.supplies (allocateGlobals_allots parts.allocated) hWellformed.nodup
    hWellformed.identifiers (by simp [SymbolTable.empty]) with
    ⟨hData, hLabels, bindings, hBound, hAllocated⟩
  subst hBound
  -- Marks are not among the names that are in use.
  replace hData : Supplies .empty parts.bound (compiled.program.data.map Declaration.name) :=
    ⟨hData.nodup, hData.fresh, hData.taken, hData.kept, hData.targets⟩
  refine ⟨hData, hAllocated, ⟨⟨?_, ?_⟩, rfl, ?_, fun _ _ => Iff.rfl⟩, hLabels⟩
  · intro _ hB
    rcases hAllocated.of_binding hB with ⟨_, _, hEq, _⟩
    rw [hEq]
  · intro b hB
    change b ∈ parts.bound.labels at hB
    rw [hLabels] at hB
    cases hB
  · intro _ hB
    refine hData.taken _ ?_
    rw [← hAllocated.targets]
    exact mem_map_of_mem hB

/- Statements are compiled in scopes of the whole program. -/
theorem scope_of_parts :
    InScope parts.outlook parts.started ∧ Moment parts.outlook parts.final := by
  have started := started_of_parts parts hNamed
  rcases grows_label started.known.ready isStem_landing parts.labelled with ⟨hEntry, _⟩
  have hScope : InScope parts.outlook parts.started := by
    refine ⟨started.known.grows hEntry, fun hInside => ?_⟩
    rw [hEntry.outside rfl] at hInside
    cases hInside
  have hUsual := (steady_label isStem_landing parts.labelled).1.usual
  have hFinal : Final parts.outlook parts.final := by
    unfold Parts.outlook
    rw [parts.frames_eq, parts.table_eq]
    exact ⟨fun _ h => h, fun _ h => h⟩
  exact ⟨hScope, hScope.grows (parts.emits.grows hEntry.ready hNamed), hFinal, fun _ h => h,
    (parts.emits.signed hNamed).usual.trans hUsual⟩

/- At the start as well the whole program is known. -/
theorem moment_of_parts :
    Moment parts.outlook parts.started := by
  rcases scope_of_parts parts hNamed with ⟨hScope, hEnd⟩
  exact hScope.moment (parts.emits.grows hScope.known.ready hNamed) (parts.emits.signed hNamed) hEnd

/- All code of a program has every property that is composed. -/
theorem composed_of_parts {R : Generator → List Stmt → Code → Prop}
    (hR : Composes parts.outlook R) :
    R parts.started stmts parts.code := by
  rcases scope_of_parts parts hNamed with ⟨hScope, hEnd⟩
  exact parts.emits.composed hR hNamed hScope hEnd

/- A script that compiles has all these properties. -/
theorem facts_of_parts : Facts parts := by
  have started := started_of_parts parts hNamed
  rcases grows_label started.known.ready isStem_landing parts.labelled with ⟨hEntry, hSome⟩
  have hCode := parts.emits.grows hEntry.ready hNamed
  have hGrows := hEntry.append hCode
  have hLabels : labels compiled.program.code = labels ([mark parts.entry] ++ parts.code) := by
    rw [parts.code_eq, labels_append, ending_unlabelled, append_nil]
  have hHome : parts.started.context.function.map Signature.name = none := by
    unfold Generator.context
    rw [hEntry.outside rfl]
    rfl
  have hSight := (moment_of_parts parts hNamed).sight
  refine ⟨analyzeGlobals_wellformed hNamed parts.analyzed, started.allocated, ?_, ?_, ?_, ?_, ?_⟩
  · rcases hGrows.names with ⟨_, hFrames, hNames⟩
    have hAll := started.data.trans hNames
    unfold names
    rw [hLabels, parts.table_eq, parts.frames_eq, hFrames]
    exact hAll
  · rw [parts.table_eq]
    exact hGrows.data
  · rw [hLabels, labels_append, labels_mark hSome, congrArg Program.entry parts.program]
    exact mem_append_left _ mem_cons_self
  · intro b hB
    rw [parts.table_eq] at hB
    rcases hGrows.added b hB with hOld | hNew
    · change b ∈ parts.bound.labels at hOld
      rw [started.labels] at hOld
      cases hOld
    · rw [hLabels]
      exact hNew
  · have hPlaced := composed_of_parts parts hNamed composes_placed
    have hMark := placed_mark parts.entry hSight
    have hEnding : Everywhere (Placed parts.outlook none) (ending stmts) := by
      unfold ending
      split
      · exact .nil
      · exact .singleton (.use hSight (.inl hHome) (.unary rfl))
    rw [hHome] at hPlaced hMark
    rw [parts.code_eq]
    exact .append (placed_stable _) (.append (placed_stable _) hMark hPlaced) hEnding

end Parts

end Compile

end Pep9
