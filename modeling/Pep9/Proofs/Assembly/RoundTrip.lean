import Pep9.Proofs.Assembly.Addresses
import Pep9.Proofs.Machine.Execution

/-
  The listing of a program is assembled, to the object code of
  the program, and the machine fetches from there what the
  program says. Only a label column that is too wide for the
  layout makes a listing that is refused.

  Key theorems: `firstPass_placeable`, `secondPass_encodable`,
  `assemble_of_width`, `refuse_of_width`, `assemble_listing`.
-/

namespace Pep9

open List
open Compile (Code Fitting labels frameNames names)
open Listing (Instruction Declaration Frame Program Layout)
open Machine (Decodes)

variable {d : Declaration} {i : Instruction} {texts : List String}

namespace Assembly

variable {plan : Plan} {line : Line} {lines : List NumberedLine}
  {body : List Line} {symbols : Symbols} {layout : Layout} {v : Int64}

/- A line before the end of a text that can be laid out. -/
structure Line.Placeable (line : Line) : Prop where
  goes : line.statement ≠ .finish
  readable : line.statement.Readable
  equate : ∀ operands, line.statement = .equate operands → line.label ≠ none
  short : ∀ label, line.label = some label → label.utf8ByteSize ≤ longestSymbol

theorem Plan.take_of_room {bytes : Nat}
    (h : plan.address + bytes ≤ addressSpace) :
    ∃ next, plan.take bytes = .ok next := ⟨_, if_neg (Nat.not_lt.mpr h)⟩

theorem Plan.takeStatement_of_room {label : Option String}
    {statement : Statement}
    (hReadable : statement.Readable)
    (hEquate :
      ∀ operands, statement = .equate operands → label ≠ none)
    (hRoom : plan.address + statement.size ≤ addressSpace) :
    ∃ next, plan.takeStatement label statement = .ok next := by
  cases statement with
  | empty | finish => exact ⟨_, rfl⟩
  | equate =>
    rcases hReadable with ⟨_, value, rfl, hValue⟩
    cases label with
    | none => exact absurd rfl (hEquate _ rfl)
    | some name =>
      refine ⟨{ plan with symbols := plan.symbols.set name value }, ?_⟩
      rw [Plan.takeStatement, hValue]
  | word =>
    rcases hReadable with ⟨_, rfl⟩
    exact Plan.take_of_room hRoom
  | block =>
    rcases hReadable with ⟨_, _, rfl, hSize⟩
    rw [Statement.size, hSize] at hRoom
    rw [Plan.takeStatement, hSize]
    exact Plan.take_of_room hRoom
  | instruction => exact Plan.take_of_room hRoom
  | unknown => cases hReadable

theorem Plan.bindLabel_of_new {label : Option String}
    (hShort :
      ∀ name, label = some name → name.utf8ByteSize ≤ longestSymbol)
    (hNew :
      ∀ name, label = some name → plan.symbols.lookup? name = none) :
    ∃ bound, plan.bindLabel label = .ok bound ∧ bound.address = plan.address := by
  cases label with
  | none => exact ⟨plan, rfl, rfl⟩
  | some name =>
    refine ⟨{ plan with
      symbols := plan.symbols.set name (UInt16.ofNat plan.address) },
      ?_, rfl⟩
    rw [Plan.bindLabel, if_neg (Nat.not_lt.mpr (hShort name rfl)), hNew name rfl]
    rfl

/- A line with a new label is laid out where there is room. -/
theorem Plan.takeLine_placeable
    (h : line.Placeable)
    (hOpen : plan.ended = false)
    (hNew :
      ∀ label, line.label = some label → plan.symbols.lookup? label = none)
    (hRoom : plan.address + line.statement.size ≤ addressSpace) :
    ∃ next, plan.takeLine line = (next, none) := by
  unfold Plan.takeLine
  by_cases hEmpty : line.isEmpty = true
  · exact ⟨plan, if_pos hEmpty⟩
  · rcases Plan.bindLabel_of_new h.short hNew with ⟨_, hBound, hAddress⟩
    rw [← hAddress] at hRoom
    rcases Plan.takeStatement_of_room h.readable h.equate hRoom with ⟨next, hNext⟩
    refine ⟨next, ?_⟩
    rw [if_neg hEmpty, hOpen, if_neg Bool.false_ne_true, hBound]
    dsimp only
    rw [hNext]

/- The last lines of a listing: its end, and nothing behind it. -/
def lastLines : List Line := [⟨none, .finish⟩, ⟨none, .empty⟩]

section

variable
  (hContents : lines.map NumberedLine.content = (body ++ lastLines).map .ok)
include hContents

/-
  The first pass takes lines that can be laid out, with labels
  that are all different, as far as there is room.
-/
theorem firstPass_placeable
    (hOpen : plan.ended = false)
    (hBody : ∀ line ∈ body, line.Placeable)
    (hDistinct : (body.filterMap Line.label).Nodup)
    (hNew :
      ∀ label ∈ body.filterMap Line.label, plan.symbols.lookup? label = none)
    (hRoom :
      plan.address + (body.map fun line => line.statement.size).sum ≤ addressSpace) :
    ∃ known, firstPass plan lines = (known, none) := by
  induction body generalizing plan lines with
  | nil =>
    rcases map_eq_cons_iff.mp hContents with ⟨_, _, rfl, hFirst, hRest⟩
    rcases map_eq_cons_iff.mp hRest with ⟨_, _, rfl, hSecond, hOthers⟩
    cases map_eq_nil_iff.mp hOthers
    refine ⟨plan.symbols, ?_⟩
    have hTaken : plan.takeLine ⟨none, .finish⟩ = ({ plan with ended := true }, none) := by
      unfold Plan.takeLine
      rw [hOpen]
      rfl
    rw [firstPass, hFirst]
    dsimp only
    rw [hTaken]
    dsimp only
    rw [firstPass, hSecond]
    rfl
  | cons line body ih =>
    rw [cons_append, map_cons] at hContents
    rcases map_eq_cons_iff.mp hContents with ⟨_, _, rfl, hFirst, hRest⟩
    rw [map_cons, sum_cons] at hRoom
    have hHere : ∀ label, line.label = some label → label ∈ (line :: body).filterMap Line.label :=
      fun label hLabel => mem_filterMap.mpr ⟨line, mem_cons_self, hLabel⟩
    have hLine := hBody line mem_cons_self
    rcases Plan.takeLine_placeable hLine hOpen (fun label hLabel => hNew label (hHere label hLabel))
      (by omega) with ⟨_, hNext⟩
    have hLaid := Plan.takeLine_laid hNext
    have hEnded := (Plan.takeLine_readable hNext).2.2 hOpen
    rw [firstPass, hFirst]
    dsimp only
    rw [hNext]
    refine ih hRest (Bool.eq_false_iff.mpr fun hOver => hLine.goes (hEnded.mp hOver))
      (fun other hOther => hBody other (mem_cons_of_mem _ hOther)) ?_ ?_ ?_
    · refine hDistinct.sublist ?_
      exact (sublist_cons_self line body).filterMap Line.label
    · intro label hLabel
      have hOther : line.label ≠ some label := by
        intro hSame
        rw [filterMap_cons_some hSame] at hDistinct
        exact (nodup_cons.mp hDistinct).1 hLabel
      rw [hLaid.only label hOther]
      refine hNew label ?_
      exact ((sublist_cons_self line body).filterMap Line.label).subset hLabel
    · rw [hLaid.address]
      omega

theorem secondPass_encodable
    (hBody :
      ∀ line ∈ body, ∃ bytes?, encode symbols line.statement = .ok bytes?) :
    ∃ chunks, secondPass symbols lines = .ok chunks := by
  induction body generalizing lines with
  | nil =>
    rcases map_eq_cons_iff.mp hContents with ⟨_, _, rfl, hFirst, _⟩
    refine ⟨[], ?_⟩
    rw [secondPass, hFirst]
    rfl
  | cons line _ ih =>
    rw [cons_append, map_cons] at hContents
    rcases map_eq_cons_iff.mp hContents with ⟨_, _, rfl, hFirst, hRest⟩
    rcases hBody line mem_cons_self with ⟨bytes?, hBytes⟩
    rcases ih hRest fun other hOther =>
      hBody other (mem_cons_of_mem _ hOther) with ⟨chunks, hChunks⟩
    rw [secondPass, hFirst]
    dsimp only
    split
    · exact ⟨[], rfl⟩
    · rw [hBytes]
      cases bytes? with
      | none => exact ⟨chunks, hChunks⟩
      | some =>
        dsimp only
        rw [hChunks]
        exact ⟨_, rfl⟩

end

/- A number that fits in a word, signed or unsigned. -/
def InWord (v : Int64) : Prop := -32768 ≤ v.toInt ∧ v.toInt ≤ 65535

instance (v : Int64) : Decidable (InWord v) := by
  unfold InWord
  infer_instance

def declarationSize (d : Declaration) : Nat :=
  match d.directive with
  | .word => 2
  | .block => d.value.toInt.toNat
  | _ => 0

def instructionSize (i : Instruction) : Nat :=
  match i.op with
  | .known m => m.length
  | .other _ => 0

/- The number of bytes of a program, with its first branch. -/
def programSize (p : Program) : Nat :=
  dataStart + ((p.data.map declarationSize).sum + (p.code.map instructionSize).sum)

/- A declaration of the assembler, with a number in range. -/
structure Storable (d : Declaration) : Prop where
  directive : ∀ text, d.directive ≠ .other text
  value : InWord d.value
  block : d.directive = .block → 0 ≤ d.value.toInt

/-
  A program with names that are short, distinct symbols, with
  instructions that the machine has, with all its symbols
  defined and its numbers in range, which fits into memory.
-/
structure Writable (p : Program) : Prop where
  distinct : (names p).Nodup
  symbols : ∀ name ∈ names p, isSymbol name = true ∧ name.utf8ByteSize ≤ longestSymbol
  fitting : ∀ i ∈ p.code, Fitting i
  numbers : ∀ i ∈ p.code, ∀ v, i.operand = .number v → InWord v
  defined : ∀ i ∈ p.code, ∀ name, i.operand = .symbol name → name ∈ names p
  entry : p.entry ∈ names p
  data : ∀ d ∈ p.data, Storable d
  equates : ∀ f ∈ p.frames, ∀ d ∈ f.decls, d.directive = .equate ∧ InWord d.value
  functions : ∀ f ∈ p.frames, '\n' ∉ f.function.toList
  source : '\n' ∉ p.source.toList
  size : programSize p ≤ addressSpace

/- Whether the machine has an instruction. -/
instance (i : Instruction) : Decidable (Fitting i) :=
  match i with
  | ⟨_, .other _, _, _⟩ => .isFalse nofun
  | ⟨_, .known m, operand, mode⟩ =>
    decidable_of_iff ((m.form = .unary ∧ operand = .absent) ∨
        (m.form = .branch ∧ operand ≠ .absent ∧ mode = .none) ∨
        (m.form = .general ∧ operand ≠ .absent ∧ ∃ addressing ∈ mode.addressing?,
            addressing = .immediate → m.writesOperand = false)) <| by
      constructor
      · rintro (⟨hForm, rfl⟩ | ⟨hForm, hOperand, rfl⟩ |
          ⟨hForm, hOperand, addressing, hMode, hWrite⟩)
        · exact .unary hForm
        · exact .branch hForm hOperand
        · exact .general hForm hOperand hMode hWrite
      · rintro (hForm | ⟨hForm, hOperand⟩ | ⟨hForm, hOperand, hMode, hWrite⟩)
        · exact .inl ⟨hForm, rfl⟩
        · exact .inr (.inl ⟨hForm, hOperand, rfl⟩)
        · exact .inr (.inr ⟨hForm, hOperand, _, hMode, hWrite⟩)

instance (d : Declaration) : Decidable (Storable d) :=
  match h : d.directive with
  | .other text => .isFalse fun hD => hD.directive text h
  | .equate | .word =>
    decidable_of_iff (InWord d.value)
      ⟨fun hValue => ⟨by simp [h], hValue, by simp [h]⟩, Storable.value⟩
  | .block =>
    decidable_of_iff (InWord d.value ∧ 0 ≤ d.value.toInt)
      ⟨fun hValue => ⟨by simp [h], hValue.1, fun _ => hValue.2⟩, fun hD => ⟨hD.value, hD.block h⟩⟩

/- A number in range, or a symbol that is defined. -/
def Resolved (defined : List String) : Listing.Operand → Prop
  | .absent => True
  | .number v => InWord v
  | .symbol name => name ∈ defined

instance (defined : List String) (operand : Listing.Operand) :
    Decidable (Resolved defined operand) :=
  match operand with
  | .absent => .isTrue trivial
  | .number v => inferInstanceAs (Decidable (InWord v))
  | .symbol name => inferInstanceAs (Decidable (name ∈ defined))

theorem resolved_iff {defined : List String} {operand : Listing.Operand} :
    Resolved defined operand ↔ (∀ v, operand = .number v → InWord v) ∧
        ∀ name, operand = .symbol name → name ∈ defined := by
  cases operand with
  | absent => exact ⟨fun _ => ⟨nofun, nofun⟩, fun _ => trivial⟩
  | number v =>
    refine ⟨fun h => ⟨?_, nofun⟩, fun h => h.1 v rfl⟩
    rintro _ ⟨⟩
    exact h
  | symbol name =>
    refine ⟨fun h => ⟨nofun, ?_⟩, fun h => h.2 name rfl⟩
    rintro _ ⟨⟩
    exact h

/-
  Whether a program can be written is decided without its
  listing.
-/
instance (p : Program) : Decidable (Writable p) :=
  decidable_of_iff ((names p).Nodup ∧ (∀ name ∈ names p,
        isSymbol name = true ∧ name.utf8ByteSize ≤ longestSymbol) ∧
      (∀ i ∈ p.code, Fitting i ∧ Resolved (names p) i.operand) ∧ p.entry ∈ names p ∧
      (∀ d ∈ p.data, Storable d) ∧ (∀ f ∈ p.frames,
        (∀ d ∈ f.decls, d.directive = .equate ∧ InWord d.value) ∧ '\n' ∉ f.function.toList) ∧
      '\n' ∉ p.source.toList ∧ programSize p ≤ addressSpace) <| by
    constructor
    · rintro ⟨hDistinct, hSymbols, hCode, hEntry, hData, hFrames, hSource, hSize⟩
      exact {
          distinct := hDistinct
          symbols := hSymbols
          fitting := fun i hI => (hCode i hI).1
          numbers := fun i hI => (resolved_iff.mp (hCode i hI).2).1
          defined := fun i hI => (resolved_iff.mp (hCode i hI).2).2
          entry := hEntry
          data := hData
          equates := fun f hF => (hFrames f hF).1
          functions := fun f hF => (hFrames f hF).2
          source := hSource
          size := hSize }
    · intro h
      have hCode : ∀ i ∈ p.code, Fitting i ∧ Resolved (names p) i.operand := fun i hI =>
        ⟨h.fitting i hI, resolved_iff.mpr ⟨h.numbers i hI, h.defined i hI⟩⟩
      exact ⟨h.distinct, h.symbols, hCode, h.entry, h.data,
        fun f hF => ⟨h.equates f hF, h.functions f hF⟩, h.source, h.size⟩

namespace Writable

variable {p : Program}

variable (h : Writable p)
include h

theorem ready : Ready p where
  fitting := h.fitting
  targets := fun name hName => isWord_of_isSymbol (h.symbols name hName).1
  operands := h.defined
  entry := h.entry
  data := fun d hD => (h.data d hD).directive
  frames := fun f hF => ⟨h.functions f hF, fun d hD => (h.equates f hF d hD).1⟩

theorem instruction (hI : i ∈ Instruction.jump .br p.entry :: p.code) :
    Fitting i ∧
      (∀ v, i.operand = .number v → InWord v) ∧
      ∀ name, i.operand = .symbol name → name ∈ names p := by
  rcases mem_cons.mp hI with rfl | hI
  · refine ⟨.branch rfl nofun, nofun, fun name hName => ?_⟩
    cases hName
    exact h.entry
  · exact ⟨h.fitting i hI, h.numbers i hI, h.defined i hI⟩

theorem declaration (hD : d ∈ p.data ++ p.frames.flatMap Frame.decls) :
    Storable d ∧ d.name ∈ names p := by
  rcases mem_append.mp hD with hD | hD
  · exact ⟨h.data d hD, mem_append_left _ (mem_map_of_mem hD)⟩
  · rcases mem_flatMap.mp hD with ⟨f, hF, hD⟩
    rcases h.equates f hF d hD with ⟨hEquate, hValue⟩
    refine ⟨⟨?_, hValue, ?_⟩, ?_⟩
    · rw [hEquate]
      nofun
    · rw [hEquate]
      nofun
    · exact mem_append_right _ (mem_append_right _
        (mem_flatMap.mpr ⟨f, hF, mem_map_of_mem hD⟩))

end Writable

------------------------------------------------------------
-- The Lines of a Program
------------------------------------------------------------

variable {p : Program}

/- What a line of a listing before its end is. -/
theorem bodyLines_cases (h : line ∈ bodyLines layout p) :
    line = ⟨none, .empty⟩ ∨
      (∃ i ∈ Instruction.jump .br p.entry :: p.code, line = instructionLine i) ∨
      ∃ d ∈ p.data ++ p.frames.flatMap Frame.decls, line = declarationLine d := by
  have hComment : ∀ {line}, line ∈ commentLines layout → line = ⟨none, .empty⟩ := by
    intro _ hLine
    unfold commentLines at hLine
    split at hLine
    · exact mem_singleton.mp hLine
    · cases hLine
  unfold bodyLines at h
  simp only [mem_append, mem_singleton, mem_map, mem_flatMap] at h
  rcases h with (((((((hLine | hLine) | rfl) | hLine) | ⟨d, hD, rfl⟩) |
      ⟨f, hF, hLine | ⟨d, hD, rfl⟩⟩) | hLine) | ⟨i, hI, rfl⟩)
  · split at hLine
    · cases hLine
    · exact .inl (hComment hLine)
  · exact .inl (hComment hLine)
  · exact .inr (.inl ⟨_, mem_cons_self, rfl⟩)
  · exact .inl (hComment hLine)
  · exact .inr (.inr ⟨d, mem_append_left _ hD, rfl⟩)
  · exact .inl (hComment hLine)
  · exact .inr (.inr ⟨d, mem_append_right _ (mem_flatMap.mpr ⟨f, hF, hD⟩), rfl⟩)
  · exact .inl (hComment hLine)
  · exact .inr (.inl ⟨i, mem_cons_of_mem _ hI, rfl⟩)

theorem readWord?_of_inWord (h : InWord v) :
    readWord? (toString v) = some (UInt16.ofInt v.toInt) := by
  rcases h with ⟨_, _⟩
  rw [readWord?_toString, if_neg]
  omega

theorem toNat_ofInt
    (h : InWord v)
    (hPositive : 0 ≤ v.toInt) :
    (UInt16.ofInt v.toInt).toNat = v.toInt.toNat := by
  rcases h with ⟨_, _⟩
  unfold UInt16.ofInt
  rw [UInt16.toNat_ofNat']
  omega

/- A declaration with its directive: its size, and that it is read. -/
theorem declaration_readable (h : Storable d) :
    (declarationLine d).statement.Readable ∧
      (declarationLine d).statement.size = declarationSize d := by
  have hRead := readWord?_of_inWord h.value
  unfold declarationLine declarationSize
  cases hKind : d.directive with
  | equate => exact ⟨⟨_, _, rfl, hRead⟩, rfl⟩
  | word => exact ⟨⟨_, rfl⟩, rfl⟩
  | block =>
    refine ⟨⟨_, _, rfl, hRead⟩, ?_⟩
    change ((readWord? (toString d.value)).map UInt16.toNat).getD 0 = _
    rw [hRead]
    exact toNat_ofInt h.value (h.block hKind)
  | other text => exact absurd hKind (h.directive text)

theorem instruction_readable (h : Fitting i) :
    (instructionLine i).statement.Readable ∧
      (instructionLine i).statement.size = instructionSize i := by
  rcases instructionLine_statement h with ⟨_, hOp, hStatement⟩
  unfold instructionSize
  rw [hStatement, hOp]
  exact ⟨trivial, rfl⟩

theorem Writable.placeable
    (h : Writable p)
    (hLine : line ∈ bodyLines layout p) :
    line.Placeable := by
  rcases bodyLines_cases hLine with rfl | ⟨i, hI, rfl⟩ | ⟨_, hD, rfl⟩
  · exact ⟨nofun, trivial, nofun, nofun⟩
  · rcases h.instruction hI with ⟨hFitting, _, _⟩
    refine ⟨instruction_goes hFitting, (instruction_readable hFitting).1, ?_, ?_⟩
    · rcases instructionLine_statement hFitting with ⟨_, _, hStatement⟩
      rw [hStatement]
      nofun
    · intro _ hLabel
      rcases mem_cons.mp hI with rfl | hI
      · cases hLabel
      · unfold instructionLine at hLabel
        dsimp only at hLabel
        split at hLabel
        · cases hLabel
        · next hSome =>
          cases hLabel
          refine (h.symbols _ (mem_append_right _ (mem_append_left _ ?_))).2
          exact Compile.mem_labels.mpr ⟨hSome, i, hI, rfl⟩
  · rcases h.declaration hD with ⟨hStorable, hName⟩
    refine ⟨declaration_goes hStorable.directive,
      (declaration_readable hStorable).1, fun _ _ => nofun, ?_⟩
    intro _ hLabel
    cases hLabel
    exact (h.symbols _ hName).2

/- Lines with nothing on them have no labels and take no place. -/
theorem filterMap_label_filter (lines : List Line) :
    (lines.filter fun line => !line.isEmpty).filterMap Line.label = lines.filterMap Line.label := by
  rw [filterMap_filter]
  refine filterMap_congr fun line _ => ?_
  cases hEmpty : line.isEmpty with
  | false => rfl
  | true =>
    cases Line.isEmpty_iff.mp hEmpty
    rfl

theorem sum_sizes_filter (lines : List Line) :
    ((lines.filter fun line => !line.isEmpty).map
      fun line => line.statement.size).sum = (lines.map fun line => line.statement.size).sum := by
  induction lines with
  | nil => rfl
  | cons line _ ih =>
    rw [filter_cons, map_cons, sum_cons, ← ih]
    cases hEmpty : line.isEmpty with
    | false => rfl
    | true =>
      cases Line.isEmpty_iff.mp hEmpty
      exact (Nat.zero_add _).symm

theorem filterMap_instructionLine (code : Code) :
    (code.map instructionLine).filterMap Line.label = labels code := by
  unfold labels
  rw [filterMap_map, ← filterMap_eq_filter, filterMap_map]
  refine filterMap_congr fun i _ => ?_
  by_cases hLabel : i.label = ""
  · simp [instructionLine, hLabel, Option.guard]
  · simp [instructionLine, hLabel, Option.guard]

theorem filterMap_declarationLine (decls : List Declaration) :
    (decls.map declarationLine).filterMap Line.label = decls.map Declaration.name := by
  rw [filterMap_map, ← filterMap_eq_map]
  rfl

/- The labels of a listing are the names of its program. -/
theorem labels_bodyLines (h : Ready p) :
    (bodyLines layout p).filterMap Line.label =
      p.data.map Declaration.name ++ (frameNames p.frames ++ labels p.code) := by
  have hCore := congrArg (filterMap Line.label) (filter_body layout h)
  rw [filterMap_label_filter] at hCore
  unfold coreLines at hCore
  rw [← map_flatMap] at hCore
  simp only [filterMap_append, filterMap_instructionLine, filterMap_declarationLine] at hCore
  unfold frameNames
  rw [← map_flatMap]
  simpa [instructionLine, Instruction.jump, Instruction.of] using hCore

/- The lines of a listing take as many bytes as its program. -/
theorem sum_sizes_bodyLines (h : Writable p) :
    ((bodyLines layout p).map fun line => line.statement.size).sum = programSize p := by
  have hCore := congrArg (fun lines => (lines.map fun line : Line => line.statement.size).sum)
    (filter_body layout h.ready)
  have hData : ((p.data.map declarationLine).map fun l => l.statement.size).sum =
        (p.data.map declarationSize).sum := by
    rw [map_map]
    exact congrArg List.sum (map_congr_left fun d hD => (declaration_readable (h.data d hD)).2)
  have hSlots : (((p.frames.flatMap Frame.decls).map declarationLine).map
        fun l => l.statement.size).sum = 0 := by
    rw [@sum_sizes _ declarationLine (fun _ => [])]
    · simp
    · intro d hD
      rcases mem_flatMap.mp hD with ⟨f, hF, hMem⟩
      unfold declarationLine
      rw [(h.equates f hF d hMem).1]
      rfl
  have hCode : ((p.code.map instructionLine).map fun l => l.statement.size).sum =
        (p.code.map instructionSize).sum := by
    rw [map_map]
    exact congrArg List.sum (map_congr_left fun i hI =>
      (instruction_readable (h.fitting i hI)).2)
  have hEntry : (instructionLine (.jump .br p.entry)).statement.size = dataStart :=
    (instruction_readable (h.instruction mem_cons_self).1).2
  have hFinish : Statement.finish.size = 0 := rfl
  have hNothing : Statement.empty.size = 0 := rfl
  rw [sum_sizes_filter] at hCore
  unfold coreLines at hCore
  rw [← map_flatMap] at hCore
  simp only [map_append, sum_append, map_singleton,
    sum_singleton, hEntry, hData, hSlots, hCode, hFinish, hNothing,
    Nat.add_zero, Nat.zero_add] at hCore
  exact hCore

/- So there is room for them from the first address on. -/
theorem Writable.room
    (h : Writable p)
    (layout : Layout) :
    (Plan.start .empty).address
        + ((bodyLines layout p).map fun l => l.statement.size).sum ≤
      addressSpace := by
  rw [sum_sizes_bodyLines h]
  exact (Nat.zero_add _).trans_le h.size

theorem resolve_of_inWord
    (symbols : Symbols)
    (h : InWord v) :
    ∃ w, resolve symbols (toString v) = .ok w := by
  refine ⟨UInt16.ofInt v.toInt, ?_⟩
  unfold resolve
  rw [readWord?_of_inWord h]

theorem resolve_of_lookup {name : String} {w : UInt16}
    (h : symbols.lookup? name = some w) :
    ∃ w', resolve symbols name = .ok w' := by
  unfold resolve
  split
  · exact ⟨_, rfl⟩
  · rw [h]
    exact ⟨w, rfl⟩

/- Each line of a listing is encoded once its names are known. -/
theorem Writable.encodable
    (h : Writable p)
    (hKnown : ∀ name ∈ names p, ∃ w, symbols.lookup? name = some w)
    (hLine : line ∈ bodyLines layout p) :
    ∃ bytes?, encode symbols line.statement = .ok bytes? := by
  rcases bodyLines_cases hLine with rfl | ⟨i, hI, rfl⟩ | ⟨d, hD, rfl⟩
  · exact ⟨none, rfl⟩
  · rcases h.instruction hI with ⟨hFitting, hNumber, hSymbol⟩
    rcases instructionLine_statement hFitting with ⟨_, hOp, hStatement⟩
    rcases hFitting.accepted with ⟨_, hOp', hAccepted⟩
    cases hOp.symm.trans hOp'
    have hResolved : i.operand ≠ .absent → ∃ word, resolve symbols i.operand.text = .ok word := by
      intro hSome
      cases hOperand : i.operand with
      | absent => exact absurd hOperand hSome
      | number v => exact resolve_of_inWord symbols (hNumber v hOperand)
      | symbol name =>
        rcases hKnown name (hSymbol name hOperand) with ⟨_, hLookup⟩
        exact resolve_of_lookup hLookup
    rcases hAccepted symbols hResolved with ⟨bytes, hBytes⟩
    refine ⟨some bytes, ?_⟩
    rw [hStatement, encode, hBytes]
    rfl
  · rcases h.declaration hD with ⟨hStorable, _⟩
    unfold declarationLine
    cases hKind : d.directive with
    | equate => exact ⟨none, rfl⟩
    | word =>
      rcases resolve_of_inWord symbols hStorable.value with ⟨w, hWord⟩
      refine ⟨some (bytesOfWord w), ?_⟩
      change encode symbols (.word [toString d.value]) = _
      rw [encode, hWord]
      rfl
    | block =>
      refine ⟨some (replicate (UInt16.ofInt d.value.toInt).toNat 0), ?_⟩
      change encode symbols (.block [toString d.value]) = _
      rw [encode, readWord?_of_inWord hStorable.value]
    | other text => exact absurd hKind (hStorable.directive text)

------------------------------------------------------------
-- Listings that are Taken
------------------------------------------------------------

theorem parse_of_reads {lines : List Line}
    (hWidth : layout.width ≤ Layout.widest)
    (hSymbols :
      ∀ line ∈ lines, ∀ label, line.label = some label →
        isSymbol label = true)
    (h : List.Forall₂ (Reads layout) texts lines) :
    texts.map Line.parse = lines.map .ok := by
  induction h with
  | nil => rfl
  | @cons text line _ _ hFirst _ ih =>
    have hLine : Line.parse text = .ok line := by
      rw [hFirst.parse]
      cases hLabel : line.label with
      | none => rfl
      | some label =>
        dsimp only
        rw [if_neg (Nat.not_lt.mpr hWidth), if_pos (hSymbols line mem_cons_self label hLabel)]
    rw [map_cons, map_cons, hLine, ih fun other hOther =>
      hSymbols other (mem_cons_of_mem _ hOther)]

/- The texts of a listing, with the nothing behind its last line. -/
theorem reads_listing
    (layout : Layout)
    (h : Writable p) :
    ∃ texts, Text.lines (p.listing layout) = texts ∧ List.Forall₂ (Reads layout) texts
          (bodyLines layout p ++ lastLines) := by
  have hReads := reads_program layout h.ready fun _ => h.source
  refine ⟨raws layout p ++ [""], ?_, ?_⟩
  · rw [listing_eq, joined, lines_join (ne_newline_of_reads hReads)]
  · rw [show lastLines = [⟨none, .finish⟩] ++ [⟨none, .empty⟩] from rfl, ← append_assoc]
    exact rel_append hReads (.cons (reads_nothing layout) .nil)

theorem label_mem_names {label : String}
    (h : Ready p) :
    label ∈ (bodyLines layout p).filterMap Line.label ↔ label ∈ names p := by
  rw [labels_bodyLines h]
  unfold names
  simp only [mem_append]
  exact or_congr_right or_comm

theorem Labelled.lookup {address : Nat} {lines : List Line} {label : String}
    (h : Labelled symbols address lines)
    (hLine : line ∈ lines)
    (hLabel : line.label = some label) :
    ∃ w, symbols.lookup? label = some w := by
  rcases append_of_mem hLine with ⟨_, _, rfl⟩
  rcases (labelled_append.mp h).2.1 label hLabel with ⟨w, _, hLookup⟩
  exact ⟨w, hLookup⟩

/-
  A listing in columns that are not too wide is taken, and has
  as many bytes as its program.
-/
theorem assemble_of_width
    (h : Writable p)
    (hWidth : layout.width ≤ Layout.widest) :
    ∃ known object, assemble .empty (p.listing layout) = (known, .ok object) ∧
      object.bytes.length = programSize p := by
  rcases reads_listing layout h with ⟨_, hTexts, hReads⟩
  have hLabels : ∀ line ∈ bodyLines layout p ++ lastLines, ∀ label, line.label = some label →
        label ∈ (bodyLines layout p).filterMap Line.label := by
    intro line hLine _ hLabel
    rcases mem_append.mp hLine with hLine | hLine
    · exact mem_filterMap.mpr ⟨line, hLine, hLabel⟩
    · rcases mem_pair.mp hLine with rfl | rfl
      · cases hLabel
      · cases hLabel
  have hContents : (numberedLines (p.listing layout)).map NumberedLine.content =
        (bodyLines layout p ++ lastLines).map .ok := by
    rw [numberedLines_contents, hTexts]
    refine parse_of_reads hWidth (fun line hLine label hLabel => ?_) hReads
    exact (h.symbols label ((label_mem_names h.ready).mp (hLabels line hLine label hLabel))).1
  have hDistinct : ((bodyLines layout p).filterMap Line.label).Nodup := by
    rw [labels_bodyLines h.ready]
    refine (List.Perm.nodup_iff ?_).mp h.distinct
    exact perm_append_comm.append_left _
  rcases firstPass_placeable hContents rfl (fun _ => h.placeable)
    hDistinct (fun _ _ => rfl) (h.room layout) with ⟨known, hFirst⟩
  rcases firstPass_labelled hFirst with ⟨_, contents, hSame, hLabelled, _⟩
  have hBody : contents = bodyLines layout p ++ lastLines :=
    (map_injective_iff.mpr fun _ _ => Except.ok.inj) (hSame.symm.trans hContents)
  rw [hBody] at hLabelled
  have hKnown : ∀ name ∈ names p, ∃ w, known.lookup? name = some w := by
    intro _ hName
    rcases mem_filterMap.mp ((label_mem_names h.ready).mpr hName) with ⟨_, hLine, hLabel⟩
    exact hLabelled.lookup (mem_append_left _ hLine) hLabel
  rcases secondPass_encodable hContents (fun _ => h.encodable hKnown) with ⟨chunks, hSecond⟩
  refine ⟨known, ⟨chunks⟩, ?_, ?_⟩
  · unfold assemble
    dsimp only
    rw [hFirst]
    dsimp only
    rw [hSecond]
  · have hGoes : ∀ line ∈ bodyLines layout p, line.statement ≠ .finish :=
      fun _ hLine => (h.placeable hLine).goes
    rcases encoded_append hGoes (secondPass_encoded hContents hSecond) with
      ⟨_, _, hBytes, hFront, hBehind⟩
    cases hBehind with
    | finish => rw [hBytes, append_nil, hFront.length_eq hGoes, sum_sizes_bodyLines h]
    | line hOpen => exact absurd rfl hOpen

/-
  In columns that are too wide, the first line with a label is
  refused.
-/
theorem firstPass_overwide {behind : List Line}
    (hWidth : layout.width > Layout.widest)
    (hLines : lines.map NumberedLine.content = texts.map Line.parse)
    (hReads : List.Forall₂ (Reads layout) texts (body ++ behind))
    (hOpen : plan.ended = false)
    (hBody : ∀ line ∈ body, line.Placeable)
    (hRoom :
      plan.address + (body.map fun line => line.statement.size).sum ≤
        addressSpace)
    (hSome : body.filterMap Line.label ≠ []) :
    ∃ known number, ∃ label ∈ body.filterMap Line.label, firstPass plan lines =
        (known, some (.atLine number (.label (.malformed (overwide label))))) := by
  induction body generalizing plan lines texts with
  | nil => exact absurd rfl hSome
  | cons line _ ih =>
    rw [cons_append] at hReads
    rcases forall₂_cons_right_iff.mp hReads with ⟨_, _, hFirst, hRest, rfl⟩
    rw [map_cons] at hLines
    rcases map_eq_cons_iff.mp hLines with ⟨first, _, rfl, hContent, hOthers⟩
    rw [map_cons, sum_cons] at hRoom
    rw [hFirst.parse] at hContent
    cases hLabel : line.label with
    | some label =>
      rw [hLabel] at hContent
      dsimp only at hContent
      rw [if_pos hWidth] at hContent
      refine ⟨plan.symbols, first.number, label, ?_, ?_⟩
      · exact mem_filterMap.mpr ⟨line, mem_cons_self, hLabel⟩
      · rw [firstPass, hContent]
    | none =>
      rw [hLabel] at hContent
      rw [filterMap_cons_none hLabel] at hSome ⊢
      have hLine := hBody line mem_cons_self
      rcases Plan.takeLine_placeable hLine hOpen
        (by rw [hLabel]; rintro _ ⟨⟩) (by omega) with ⟨_, hNext⟩
      have hEnded := (Plan.takeLine_readable hNext).2.2 hOpen
      rw [firstPass, hContent]
      dsimp only
      rw [hNext]
      refine ih hOthers hRest (Bool.eq_false_iff.mpr fun hOver => hLine.goes (hEnded.mp hOver))
        (fun other hOther => hBody other (mem_cons_of_mem _ hOther)) ?_ hSome
      rw [(Plan.takeLine_laid hNext).address]
      omega

/- A listing in columns that are too wide is refused. -/
theorem refuse_of_width
    (h : Writable p)
    (hWidth : layout.width > Layout.widest) :
    ∃ known number, ∃ label ∈ names p, assemble .empty (p.listing layout) =
        (known, .error (.atLine number (.label (.malformed (overwide label))))) := by
  rcases reads_listing layout h with ⟨_, hTexts, hReads⟩
  have hLines := numberedLines_contents (p.listing layout)
  rw [hTexts] at hLines
  have hSome : (bodyLines layout p).filterMap Line.label ≠ [] :=
    ne_nil_of_mem ((label_mem_names h.ready).mpr h.entry)
  rcases firstPass_overwide hWidth hLines hReads rfl
    (fun _ => h.placeable) (h.room layout) hSome with ⟨known, number, label, hLabel, hFirst⟩
  refine ⟨known, number, label, (label_mem_names h.ready).mp hLabel, ?_⟩
  unfold assemble
  dsimp only
  rw [hFirst]

/-
  What the machine fetches where a program is in memory: the
  first branch at the start, and each instruction where the
  bytes before it end.
-/
structure Fetches (p : Program) (value : String → UInt16) (m : Machine) : Prop where
  entry : m.pc = 0 → Decodes value (.jump .br p.entry) m.fetch ∧ m.fetch.mnemonic.length = dataStart
  code : ∀ before i behind, p.code = before ++ i :: behind → m.pc =
        UInt16.ofNat (codeStart p + (codeBytes value before).length) → Decodes value i m.fetch ∧
        m.fetch.mnemonic.length = (instructionBytes value i).length

theorem fetches_of_image {value : String → UInt16} {bytes : List UInt8}
    {m : Machine}
    (hFitting : ∀ i ∈ p.code, Fitting i)
    (hImage : Image p value bytes)
    (hBytes : m.memory.Holds 0 bytes) :
    Fetches p value m := by
  rw [hImage.bytes_eq, Machine.Memory.holds_append, Machine.Memory.holds_append] at hBytes
  rcases hBytes with ⟨hEntry, _, hCode⟩
  refine ⟨fun hPC => ?_, fun before i behind hSplit hPC => ?_⟩
  · have hFirst : Fitting (.jump .br p.entry) := .branch rfl nofun
    have hDecodes := Machine.fetch_decodes hFirst hPC hEntry
    exact ⟨hDecodes, m.fetch.length_eq.symm.trans hDecodes.length_eq.symm⟩
  · have hI : i ∈ p.code := by
      rw [hSplit]
      exact mem_append_right _ mem_cons_self
    unfold codeBytes at hCode
    rw [hSplit, flatMap_append, Machine.Memory.holds_append,
      flatMap_cons, Machine.Memory.holds_append] at hCode
    have hHere := hCode.2.1
    rw [Nat.zero_add] at hHere
    have hDecodes := Machine.fetch_decodes (hFitting i hI) hPC hHere
    exact ⟨hDecodes, m.fetch.length_eq.symm.trans hDecodes.length_eq.symm⟩

/-
  The listing of a program is assembled to the object code of
  the program, from which the machine fetches the instructions
  of the program, unless the label column is too wide.
-/
theorem assemble_listing {p : Program}
    (h : Writable p)
    (layout : Layout) :
    (layout.width ≤ Layout.widest →
        ∃ known object,
          assemble .empty (p.listing layout) = (known, .ok object) ∧
          Image p known.value object.bytes ∧
          ∀ m : Machine, m.memory.Holds 0 object.bytes →
            Fetches p known.value m) ∧
      (layout.width > Layout.widest →
        ∃ known number, ∃ label ∈ names p,
          assemble .empty (p.listing layout) =
            (known, .error (.atLine number (.label (.malformed (overwide label)))))) := by
  refine ⟨fun hWidth => ?_, refuse_of_width h⟩
  rcases assemble_of_width h hWidth with ⟨known, object, hAssembled, _⟩
  have hImage := image_of_listing h.ready (fun _ => h.source) hAssembled
  exact ⟨known, object, hAssembled, hImage, fun m hBytes =>
    fetches_of_image h.fitting hImage hBytes⟩

/- A program with all kinds of lines, and a name beyond ASCII. -/
def mixed : Program where
  source := "mixed"
  entry := "main"
  data := [⟨"n", .word, -1⟩, ⟨"buf_", .block, 4⟩, ⟨"_K", .equate, 65535⟩]
  frames := [⟨"f", [⟨"été", .equate, 2⟩]⟩]
  code :=
    [.labelled "main" (.of .ldwa (.symbol "_K") .immediate),
      .of .stwa (.symbol "été") .stackRelative, .of .brne (.number 16) .none, .jump .call "main",
      .labelled "last" (.plain .stop)]

theorem mixed_writable : Writable mixed := by decide +kernel

theorem assemble_listing_mixed :
    Writable mixed ∧
      ∃ known object,
        assemble .empty (mixed.listing ⟨true, 12⟩) = (known, .ok object) ∧
        Image mixed known.value object.bytes ∧
        ∀ m : Machine, m.memory.Holds 0 object.bytes →
          Fetches mixed known.value m :=
  ⟨mixed_writable, (assemble_listing mixed_writable ⟨true, 12⟩).1 (by decide)⟩

/- In a column of more than a million places it is not assembled. -/
theorem mixed_overwide :
    Writable mixed ∧
      assemble .empty (mixed.listing ⟨true, 1000001⟩) =
        (.empty, .error (.atLine 5 (.label (.malformed "%!(BADWIDTH)n")))) :=
  ⟨mixed_writable, by decide +kernel⟩

end Assembly

end Pep9
