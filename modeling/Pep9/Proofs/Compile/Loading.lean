import Pep9.Proofs.Compile.Agreement
import Pep9.Proofs.Compile.Assembled
import Pep9.Proofs.Compile.Declared
import Pep9.Proofs.Compile.FirstAssignments

/-
  Object code in memory. Storage is where its names say, and a
  script without functions and arrays starts with each of its
  variables at its declared value.

  Key theorems: `Image.apart`, `ScalarScript.sound`,
  `ScalarScript.running`.
-/

namespace Pep9

open List
open Listing (Declaration Program)
open Machine (Steps stackTop Memory memorySize)
open Script (State Stmt)

variable {memory : Memory} {m : Machine} {before behind : List Declaration}

namespace Assembly

namespace Image

variable {p : Program} {value : String → UInt16} {bytes : List UInt8} {d d' : Declaration}

variable (h : Image p value bytes)
include h

/- Storage comes first, and the code behind it. -/
theorem length_eq :
    bytes.length = codeStart p + (codeBytes value p.code).length := by
  have hBranch : (instructionBytes value (.jump .br p.entry)).length = dataStart := rfl
  rw [h.bytes_eq, length_append, length_append]
  unfold codeStart
  omega

/- The code is in memory where the image is. -/
theorem holds_code (hBytes : memory.Holds 0 bytes) :
    memory.Holds (codeStart p) (codeBytes value p.code) := by
  have hBranch : (instructionBytes value (.jump .br p.entry)).length = dataStart := rfl
  rw [h.bytes_eq, Memory.holds_append,
    Memory.holds_append, hBranch, Nat.zero_add] at hBytes
  exact hBytes.2.2

variable (hSize : codeStart p < memorySize)
include hSize

/- The address of some storage, which is before the code. -/
theorem position
    (hData : p.data = before ++ d :: behind)
    (hDirective : d.directive ≠ .equate) :
    (value d.name).toNat = dataStart + (dataBytes before).length ∧
      (value d.name).toNat + (declarationBytes d).length ≤ codeStart p := by
  have hMemory : memorySize = 65536 := rfl
  have hLength : codeStart p = dataStart + ((dataBytes before).length +
          ((declarationBytes d).length + (dataBytes behind).length)) := by
    unfold codeStart dataBytes
    rw [hData, flatMap_append, flatMap_cons, length_append, length_append]
  have hValue : (value d.name).toNat = dataStart + (dataBytes before).length := by
    rw [h.place before d behind hData hDirective, UInt16.toNat_ofNat']
    omega
  exact ⟨hValue, by omega⟩

/- Of two declarations, the second has its storage behind. -/
theorem ordered {between : List Declaration}
    (hData : p.data = before ++ d :: (between ++ d' :: behind))
    (hDirective : d.directive ≠ .equate)
    (hDirective' : d'.directive ≠ .equate) :
    (value d.name).toNat + (declarationBytes d).length ≤
      (value d'.name).toNat := by
  have hFirst := (h.position hSize hData hDirective).1
  have hSplit : p.data = (before ++ d :: between) ++ d' :: behind := by
    rw [hData, append_assoc, cons_append]
  have hSecond := (h.position hSize hSplit hDirective').1
  have hLength : (dataBytes (before ++ d :: between)).length =
        (dataBytes before).length + ((declarationBytes d).length + (dataBytes between).length) := by
    unfold dataBytes
    rw [flatMap_append, flatMap_cons, length_append, length_append]
  omega

/- Different declarations have different bytes. -/
theorem apart
    (hD : d ∈ p.data)
    (hD' : d' ∈ p.data)
    (hNe : d ≠ d')
    (hDirective : d.directive ≠ .equate)
    (hDirective' : d'.directive ≠ .equate) :
    (value d.name).toNat + (declarationBytes d).length ≤ (value d'.name).toNat ∨
      (value d'.name).toNat + (declarationBytes d').length ≤ (value d.name).toNat := by
  rcases append_of_mem hD with ⟨_, _, hData⟩
  rw [hData] at hD'
  rcases mem_append.mp hD' with hBefore | hBehind
  · rcases append_of_mem hBefore with ⟨_, _, rfl⟩
    exact .inr (h.ordered hSize (hData.trans (append_assoc ..)) hDirective' hDirective)
  · rcases mem_cons.mp hBehind with hSame | hBehind
    · exact absurd hSame.symm hNe
    · rcases append_of_mem hBehind with ⟨_, _, rfl⟩
      exact .inl (h.ordered hSize hData hDirective hDirective')

/- What is declared is in memory with the bytes of a program. -/
theorem holds
    (hBytes : memory.Holds 0 bytes)
    (hD : d ∈ p.data)
    (hDirective : d.directive ≠ .equate) :
    memory.Holds (value d.name).toNat (declarationBytes d) := by
  rcases append_of_mem hD with ⟨_, _, hData⟩
  rw [(h.position hSize hData hDirective).1]
  have hBranch : (instructionBytes value (.jump .br p.entry)).length = dataStart := rfl
  rw [h.bytes_eq, Memory.holds_append,
    Memory.holds_append, hBranch, Nat.zero_add] at hBytes
  have hAll := hBytes.2.1
  unfold dataBytes at hAll ⊢
  rw [hData, flatMap_append, Memory.holds_append,
    flatMap_cons, Memory.holds_append] at hAll
  exact hAll.2.1

end Image

end Assembly

namespace Machine

/- A machine before the first step of some object code. -/
structure Loaded (m : Machine) (bytes : List UInt8) (input : List Char)
    (output : String) : Prop where
  bytes : m.memory.Holds 0 bytes
  pc : m.pc = 0
  sp : m.sp = stackTop
  goes : m.halted = false
  input : m.input = input
  output : m.output = output

/- What is short enough is loaded. -/
theorem load_eq_ok {bytes : List UInt8}
    (hSize : bytes.length < stackTop.toNat) :
    ∃ loaded, m.load bytes = .ok loaded ∧ loaded.Loaded bytes m.input m.output := by
  have hTop : stackTop.toNat = 64399 := rfl
  have hMemory : memorySize = 65536 := rfl
  have hHolds : (m.memory.setBytes (UInt16.ofNat 0) bytes).Holds 0 bytes :=
    Memory.holds_setBytes (by omega)
  unfold load
  rw [if_neg (by omega)]
  exact ⟨_, rfl, hHolds, rfl, rfl, rfl, rfl, rfl⟩

end Machine

namespace Compile

section Parts

variable {options : Options} {stmts : List Stmt} {compiled : Compiled}
  {parts : Parts options .empty stmts compiled}

variable {ref : Reference} {x : String}

theorem Context.reference_of_place {ctx : Context}
    (h : ctx.place x = some ref) :
    ctx.reference x = .ok ref := by
  unfold Context.place at h
  cases hFound : ctx.reference x with
  | error =>
    rw [hFound] at h
    cases h
  | ok =>
    rw [hFound] at h
    cases h
    rfl

/- A script without functions and arrays that compiles. -/
structure ScalarScript (parts : Parts options .empty stmts compiled) : Prop where
  facts : Facts parts
  named : Script.WellNamed stmts
  scalar : Script.isScalar stmts = true
  loops : Script.DeclaredOutsideLoops stmts

/- A variable of a script in sight, and its reference. -/
structure Site (parts : Parts options .empty stmts compiled) (x : String)
    (ref : Reference) (v : Global) : Prop where
  mem : ⟨x, ref.target, .data, .global⟩ ∈ parts.bound.data
  var : v ∈ parts.globals.vars
  name : v.name = x
  fits : v.storage.Fits x
  declared : v.storage.declaration ref.target ∈ compiled.program.data
  mode : ref.mode = if isConstantName x = true then .immediate else .direct

namespace ScalarScript

theorem steady (parts : Parts options .empty stmts compiled) :
    Steady (Generator.start options.usual parts.globals parts.bound)
      parts.started :=
  (steady_label isStem_landing parts.labelled).1

theorem outside (parts : Parts options .empty stmts compiled) :
    parts.started.inside = none := by
  have hInside := (steady parts).inside.isSome_eq
  exact Option.isNone_iff_eq_none.mp (Option.isSome_eq_false_iff.mp hInside)

variable (h : ScalarScript parts)
include h

theorem surveyed :
    Surveyed options.usual
      ((Script.assignments false stmts).map fun a => (a.name, a.value))
      parts.globals :=
  analyzeGlobals_surveyed h.scalar parts.analyzed

/- What a name in sight is. -/
theorem site (hPlace : parts.started.context.place x = some ref) :
    ∃ v, Site parts x ref v := by
  have hReference := Context.reference_of_place hPlace
  rcases reference_eq_ok hReference with ⟨b, hFound, hRef⟩
  have hTable : parts.started.context.table.data = parts.bound.data := by
    unfold Generator.context
    rw [outside parts]
    exact (steady parts).data
  rw [hTable] at hFound
  rcases Bindings.find_eq_some hFound with ⟨hB, hSource⟩
  rcases h.facts.variable hB with ⟨v, hVar⟩
  have hName : v.name = x := by rw [← hSource, hVar.binding]
  have hTarget : b = ⟨x, ref.target, .data, .global⟩ := by
    rw [hVar.binding, hName, hRef]
  refine ⟨v, hTarget ▸ hB, hVar.mem, hName, hName ▸ hVar.fits, ?_, ?_⟩
  · rw [hRef]
    exact hVar.declared
  · have hArray : b.target ∉ parts.started.arrays := by
      rw [(steady parts).arrays]
      intro hMem
      have hIs := hVar.array.mp hMem
      rw [(h.surveyed.declared hVar.mem).2.1] at hIs
      cases hIs
    have hScope : b.scope = .global := by rw [hTarget]
    rw [hRef]
    unfold Context.mode Generator.context
    rw [outside parts]
    simp [hScope, hArray]

theorem targets_nodup : (parts.bound.data.map Binding.target).Nodup := by
  rw [h.facts.allocated.targets]
  exact h.facts.data_nodup

/- The statements of a script meet no functions. -/
theorem scalars : Scalars parts.started where
  outside := outside parts
  slicing := by
    rw [(steady parts).slicing]
    exact h.surveyed.slicing
  functions := (steady parts).functions
  mode := by
    intro _ _ hPlace hConstant
    rcases h.site hPlace with ⟨_, hSite⟩
    rw [hSite.mode, hConstant]
    rfl
  distinct := by
    intro _ _ _ _ hX hY hTarget
    rcases h.site hX with ⟨_, hSite⟩
    rcases h.site hY with ⟨_, hSite'⟩
    have hSame := inj_on_of_nodup_map h.targets_nodup hSite.mem hSite'.mem hTarget
    exact congrArg Binding.source hSame

/- What is pending at the start has a mark and a value. -/
theorem marked (hPending : parts.started.pending x) :
    ∃ ref v, Site parts x ref v ∧ ref.target ∈ parts.bound.special ∧
      v.storage ≠ .uninitialized := by
  rcases hPending with ⟨ref, hPlace, hSpecial⟩
  rcases h.site hPlace with ⟨v, hSite⟩
  have hTable : parts.started.table.special = parts.bound.special := by
    rcases label_eq_ok parts.labelled with ⟨_, hTable, hEq⟩
    rcases SymbolTable.generate_cases hTable with ⟨_, _, _, hMade⟩
    rw [hEq, hMade]
    rfl
  have hMark : ref.target ∈ parts.bound.special := by
    rw [← hTable]
    simpa [SymbolTable.isSpecial] using hSpecial
  refine ⟨ref, v, hSite, hMark, ?_⟩
  have hMarks := allocateGlobals_marks parts.allocated
  rcases hMarks.tidy with ⟨_, hOrderly⟩
  have hFound : parts.bound.data.find x = some ⟨x, ref.target, .data, .global⟩ :=
    Bindings.find_of_mem (hOrderly.filed.sources .data) hSite.mem
  rcases mem_map.mp ((hMarks.special x _ hFound).mp (parts.marked _ hMark)) with ⟨v', hV', hEq⟩
  rw [Prod.mk.injEq] at hEq
  have hSame := inj_on_of_nodup_map h.facts.wellformed.nodup hV' hSite.var
    (hEq.1.trans hSite.name.symm)
  intro hNone
  rw [hSame, hNone] at hEq
  cases hEq.2

/- Nothing is assigned at the start. -/
theorem reached : Reached stmts parts.started [] parts.started where
  steady := .refl _
  fresh := by
    intro _ _ _ hA
    cases hA
  known := by
    intro _ hPending
    rcases h.marked hPending with ⟨_, _, hSite, _, hStorage⟩
    rw [← hSite.name]
    exact (h.surveyed.declared hSite.var).2.2 hStorage

end ScalarScript

/- Constants are equates, and other variables are words. -/
theorem Site.storage {v : Global}
    (h : Site parts x ref v)
    (hScalar : v.storage.isArray = false) :
    if isConstantName x = true then
      (v.storage.declaration ref.target).directive = .equate ∧
        UInt16.ofInt (v.storage.declaration ref.target).value.toInt = v.storage.word
    else
      (v.storage.declaration ref.target).directive ≠ .equate ∧
        Assembly.declarationBytes (v.storage.declaration ref.target) =
          Assembly.bytesOfWord v.storage.word := by
  have hFits := h.fits
  cases hStorage : v.storage with
  | uninitialized =>
    rw [hStorage] at hFits
    rw [if_neg (by simp [hFits.1])]
    exact ⟨nofun, rfl⟩
  | constant =>
    rw [hStorage] at hFits
    rw [if_pos (show isConstantName x = true from hFits)]
    exact ⟨rfl, rfl⟩
  | value =>
    rw [hStorage] at hFits
    rw [if_neg (Bool.eq_false_iff.mp hFits)]
    exact ⟨nofun, rfl⟩
  | array =>
    rw [hStorage] at hScalar
    cases hScalar

------------------------------------------------------------
-- The Program in Memory
------------------------------------------------------------

/- The program of a script, with what its names stand for. -/
def Parts.world (parts : Parts options .empty stmts compiled)
    (value : String → UInt16) : World where
  program := compiled.program
  value := value
  place := parts.started.context.place

section Image

variable {value : String → UInt16} {bytes : List UInt8}

namespace ScalarScript

variable (hImage : Assembly.Image compiled.program value bytes)
  (hSize : bytes.length + 2 ≤ stackTop.toNat)
include hImage hSize

/- The code starts in memory. -/
theorem codeStart_lt :
    Assembly.codeStart compiled.program < memorySize := by
  have hTop : stackTop.toNat = 64399 := rfl
  have hMemory : memorySize = 65536 := rfl
  have hLength := hImage.length_eq
  omega

variable (h : ScalarScript parts)
include h

/- The program fits below the stack, each variable at its place. -/
theorem sound : (parts.world value).Sound where
  fitting := (h.facts.ready h.named).fitting
  label := hImage.label
  size := hImage.length_eq ▸ hSize
  located := by
    intro x _ hPlace
    rcases h.site hPlace with ⟨_, hSite⟩
    have hStorage := hSite.storage (h.surveyed.declared hSite.var).2.1
    have hMode := hSite.mode
    by_cases hConstant : isConstantName x = true
    · rw [if_pos hConstant] at hMode
      exact .inl hMode
    · rw [if_neg hConstant] at hMode hStorage
      rcases append_of_mem hSite.declared with ⟨_, _, hData⟩
      have hEnd := (hImage.position (codeStart_lt hImage hSize) hData hStorage.1).2
      rw [hStorage.2, Storage.declaration_name] at hEnd
      exact .inr ⟨hMode, hEnd⟩
  apart := by
    intro x y ref ref' hX hY hDirect hDirect' hNe
    rcases h.site hX with ⟨v, hSite⟩
    rcases h.site hY with ⟨v', hSite'⟩
    have hStorage := hSite.storage (h.surveyed.declared hSite.var).2.1
    have hStorage' := hSite'.storage (h.surveyed.declared hSite'.var).2.1
    have hOther : v.storage.declaration ref.target ≠ v'.storage.declaration ref'.target := by
      intro hSame
      have hTarget := congrArg Declaration.name hSame
      rw [Storage.declaration_name, Storage.declaration_name] at hTarget
      exact hNe (h.scalars.distinct x y ref ref' hX hY hTarget)
    rw [hSite.mode] at hDirect
    rw [hSite'.mode] at hDirect'
    have hConstant : ¬ isConstantName x = true := by
      intro hConstant
      rw [if_pos hConstant] at hDirect
      cases hDirect
    have hConstant' : ¬ isConstantName y = true := by
      intro hConstant
      rw [if_pos hConstant] at hDirect'
      cases hDirect'
    rw [if_neg hConstant] at hStorage
    rw [if_neg hConstant'] at hStorage'
    have hApart := hImage.apart (codeStart_lt hImage hSize)
      hSite.declared hSite'.declared hOther hStorage.1 hStorage'.1
    rw [hStorage.2, hStorage'.2, Storage.declaration_name, Storage.declaration_name] at hApart
    exact hApart

/- Every variable of a loaded program has its declared value. -/
theorem word_eq
    (hBytes : memory.Holds 0 bytes)
    (hPlace : parts.started.context.place x = some ref)
    (sp : UInt16) :
    ref.word? value sp memory = some (Script.declared stmts x) := by
  rcases h.site hPlace with ⟨_, hSite⟩
  rcases h.surveyed.declared hSite.var with ⟨hDeclared, hScalar, _⟩
  have hStorage := hSite.storage hScalar
  have hMode := hSite.mode
  rw [hSite.name] at hDeclared
  rw [hDeclared]
  unfold Reference.word?
  by_cases hConstant : isConstantName x = true
  · rw [if_pos hConstant] at hMode hStorage
    have hValue := hImage.equate _ (.inl hSite.declared) hStorage.1
    rw [Storage.declaration_name, hStorage.2] at hValue
    rw [hMode]
    exact congrArg some hValue
  · rw [if_neg hConstant] at hMode hStorage
    have hHolds := hImage.holds (codeStart_lt hImage hSize) hBytes hSite.declared hStorage.1
    rw [hStorage.2, Storage.declaration_name] at hHolds
    have hWord := hHolds.word
    rw [UInt16.ofNat_toNat] at hWord
    rw [hMode]
    exact congrArg some hWord

/- The first step of a loaded program goes to its code. -/
theorem running {input : String}
    (hLoaded : m.Loaded bytes input.toList "") :
    ∃ m', Steps 1 m m' ∧ Running (parts.world value) [] (State.start stmts input) m' := by
  have hBranch := hLoaded.bytes
  rw [hImage.bytes_eq, Memory.holds_append] at hBranch
  have hFitting : Fitting (.jump .br compiled.program.entry) := .branch rfl nofun
  have hJump := Machine.step_eq_obey hFitting hLoaded.goes (by rw [hLoaded.pc]; exact hBranch.1)
  refine ⟨_, .single hLoaded.goes (hJump.trans (Machine.obey_branch hFitting rfl rfl nofun)),
    ⟨hLoaded.goes, ?_, hImage.holds_code hLoaded.bytes⟩, hLoaded.sp, ?_,
    hLoaded.input, hLoaded.output⟩
  · have hEntry : compiled.program.entry = parts.entry := congrArg Program.entry parts.program
    have hSome : (mark parts.entry).label ≠ "" := label_nonempty isStem_landing parts.labelled
    have hCode : compiled.program.code =
        [] ++ mark parts.entry :: (parts.code ++ ending stmts) := by
      rw [parts.code_eq]
      rfl
    rw [hEntry]
    exact hImage.label _ _ _ hCode hSome
  · intro _ _ hPlace
    exact h.word_eq hImage hSize hLoaded.bytes hPlace _

end ScalarScript

end Image

end Parts

end Compile

end Pep9
