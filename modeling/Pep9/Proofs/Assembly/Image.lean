import Pep9.Proofs.Assembly.Listing
import Pep9.Proofs.Assembly.Passes

/-
  The object code of a program. Its bytes and the values of
  all its names follow from the program alone.

  Key theorems: `encode_instruction`, `encode_declaration`,
  `image_of_listing`.
-/

namespace Pep9

open List Result
open Compile (Code Fitting names)
open Listing (Instruction Declaration Frame Program Layout)

variable {bytes? : Option (List UInt8)} {layout : Layout} {object : Object} {α : Type}

namespace Assembly

variable {symbols known : Symbols} {declared : List String} {w : UInt16}
  {name : String} {bytes : List UInt8} {i : Instruction} {d : Declaration}
  {p : Program} {address : Nat}

/- The word that an operand stands for. -/
def operandValue (value : String → UInt16) : Listing.Operand → UInt16
  | .absent => 0
  | .number v => UInt16.ofInt v.toInt
  | .symbol name => value name

/- The addressing field of a suffix. -/
def fieldOf (mode : Listing.Mode) : UInt8 :=
  (mode.addressing?.map Isa.Addressing.field).getD 0

/- The bytes of an instruction, with the values of names. -/
def instructionBytes (value : String → UInt16) (i : Instruction) : List UInt8 :=
  match i.op with
  | .other _ => []
  | .known m =>
    match m.form with
    | .unary => [m.opcode]
    | _ =>
      (m.opcode ||| fieldOf i.mode) :: bytesOfWord (operandValue value i.operand)

def declarationBytes (d : Declaration) : List UInt8 :=
  match d.directive with
  | .word => bytesOfWord (UInt16.ofInt d.value.toInt)
  | .block => replicate (UInt16.ofInt d.value.toInt).toNat 0
  | _ => []

def codeBytes (value : String → UInt16) (code : Code) : List UInt8 :=
  code.flatMap (instructionBytes value)

def dataBytes (decls : List Declaration) : List UInt8 :=
  decls.flatMap declarationBytes

/- Where the storage of a program starts, behind a branch. -/
def dataStart : Nat := 3

def codeStart (p : Program) : Nat := dataStart + (dataBytes p.data).length

/-
  Object code of a program: its bytes, and what the names of
  the program stand for.
-/
structure Image (p : Program) (value : String → UInt16) (bytes : List UInt8) : Prop where
  bytes_eq : bytes = instructionBytes value (.jump .br p.entry)
        ++ (dataBytes p.data ++ codeBytes value p.code)
  label : ∀ before i behind, p.code = before ++ i :: behind → i.label ≠ "" → value i.label =
        UInt16.ofNat (codeStart p + (codeBytes value before).length)
  place : ∀ before d behind, p.data = before ++ d :: behind → d.directive ≠ .equate → value d.name =
          UInt16.ofNat (dataStart + (dataBytes before).length)
  equate : ∀ d, d ∈ p.data ∨ (∃ f ∈ p.frames, d ∈ f.decls) →
      d.directive = .equate → value d.name = UInt16.ofInt d.value.toInt

def Symbols.value (symbols : Symbols) (name : String) : UInt16 :=
  (symbols.lookup? name).getD 0

theorem ofWords_name
    (m : Isa.Mnemonic)
    (operands : List String) :
    Statement.ofWords m.name operands = .instruction m operands := by
  have hNone : ∀ m ∈ Isa.Mnemonic.all, m.name ≠ ".END" ∧ m.name ≠ ".EQUATE" ∧ m.name ≠ ".WORD" ∧
        m.name ≠ ".BLOCK" := by
    decide +kernel
  rcases hNone m m.mem_all with ⟨hEnd, hEquate, hWord, hBlock⟩
  unfold Statement.ofWords
  rw [if_neg hEnd, if_neg hEquate, if_neg hWord, if_neg hBlock, m.ofName?_name]

/- The symbols of a text with labels that are symbols. -/
structure Symbols.Proper (symbols : Symbols) (declared : List String) : Prop where
  symbol : ∀ name ∈ declared, isSymbol name = true
  number : ∀ v : Int64, symbols.lookup? (toString v) = none

theorem encodeWith_eq_ok {m : Isa.Mnemonic} {field : UInt8} {operand : String}
    (h : encodeWith symbols m field operand = .ok bytes) :
    ∃ w, resolve symbols operand = .ok w ∧
      bytes = (m.opcode ||| field) :: bytesOfWord w := by
  unfold encodeWith at h
  rcases seq h with ⟨w, hResolve, hDone⟩
  cases hDone
  exact ⟨w, hResolve, rfl⟩

section

variable (hProper : symbols.Proper declared)
include hProper

/- A number stands for itself, cut to a word. -/
theorem resolve_number {v : Int64}
    (h : resolve symbols (toString v) = .ok w) :
    readWord? (toString v) = some w ∧ w = UInt16.ofInt v.toInt := by
  unfold resolve at h
  split at h
  · next value hRead =>
    cases h
    refine ⟨hRead, ?_⟩
    rw [readWord?_toString] at hRead
    split at hRead
    · cases hRead
    · exact (Option.some.inj hRead).symm
  · rw [hProper.number] at h
    dsimp only at h
    split at h
    · cases h
    · cases h

/- A declared symbol stands for its value. -/
theorem resolve_symbol
    (hName : name ∈ declared)
    (h : resolve symbols name = .ok w) :
    w = symbols.value name := by
  unfold resolve at h
  rw [readWord?_symbol (hProper.symbol name hName)] at h
  dsimp only at h
  unfold Symbols.value
  split at h
  · next value hValue =>
    cases h
    rw [hValue]
    rfl
  · split at h
    · cases h
    · cases h

theorem resolve_operand {operand : Listing.Operand}
    (hSome : operand ≠ .absent)
    (hSymbol : ∀ name, operand = .symbol name → name ∈ declared)
    (h : resolve symbols operand.text = .ok w) :
    w = operandValue symbols.value operand := by
  cases operand with
  | absent => exact absurd rfl hSome
  | number => exact (resolve_number hProper h).2
  | symbol name => exact resolve_symbol hProper (hSymbol name rfl) h

/- The bytes of an instruction are those of its parts. -/
theorem encode_instruction
    (hFitting : Fitting i)
    (hSymbol : ∀ name, i.operand = .symbol name → name ∈ declared)
    (h : encode symbols (instructionLine i).statement = .ok bytes?) :
    bytes?.getD [] = instructionBytes symbols.value i := by
  have hStatement : ∀ m, i.op = .known m →
      ∃ bytes, encodeInstruction symbols m (Compile.words i) = .ok bytes ∧
        bytes?.getD [] = bytes := by
    intro m hOp
    unfold instructionLine at h
    rw [hOp] at h
    change encode symbols (.ofWords m.name (Compile.words i)) = _ at h
    rw [ofWords_name] at h
    rcases seq h with ⟨bytes, hBytes, hDone⟩
    cases hDone
    exact ⟨bytes, hBytes, rfl⟩
  cases hFitting with
  | @unary _ m _ hForm =>
    rcases hStatement m rfl with ⟨_, hBytes, hEq⟩
    unfold encodeInstruction at hBytes
    rw [hForm] at hBytes
    cases hBytes
    rw [hEq]
    unfold instructionBytes
    simp only [hForm]
  | @branch _ m _ hForm hOperand =>
    rcases hStatement m rfl with ⟨_, hBytes, hEq⟩
    unfold encodeInstruction at hBytes
    rw [hForm, Compile.words_branch hOperand] at hBytes
    rcases encodeWith_eq_ok hBytes with ⟨_, hResolve, rfl⟩
    rw [hEq, resolve_operand hProper hOperand hSymbol hResolve]
    unfold instructionBytes
    simp only [hForm]
    rfl
  | @general _ m _ _ _ hForm hOperand hMode hWrite =>
    rcases hStatement m rfl with ⟨_, hBytes, hEq⟩
    unfold encodeInstruction at hBytes
    rw [hForm, Compile.words_general hOperand hMode] at hBytes
    rcases seq hBytes with ⟨_, hField, hWith⟩
    rw [Compile.generalField_eq hMode hWrite] at hField
    cases hField
    rcases encodeWith_eq_ok hWith with ⟨_, hResolve, rfl⟩
    rw [hEq, resolve_operand hProper hOperand hSymbol hResolve]
    unfold instructionBytes fieldOf
    simp only [hForm, hMode]
    rfl

/- The bytes that a declaration reserves. -/
theorem encode_declaration
    (hDirective : ∀ text, d.directive ≠ .other text)
    (h : encode symbols (declarationLine d).statement = .ok bytes?) :
    bytes?.getD [] = declarationBytes d := by
  unfold declarationLine at h
  unfold declarationBytes
  cases hKind : d.directive with
  | equate =>
    rw [hKind] at h
    cases h
    rfl
  | word =>
    rw [hKind] at h
    rcases seq h with ⟨_, hResolve, hDone⟩
    cases hDone
    rw [(resolve_number hProper hResolve).2]
    rfl
  | block =>
    rw [hKind] at h
    change encode symbols (.block [toString d.value]) = _ at h
    unfold encode at h
    dsimp only at h
    split at h
    · next size hSize =>
      cases h
      rw [readWord?_toString] at hSize
      split at hSize
      · cases hSize
      · cases hSize
        rfl
    · cases h
  | other text => exact absurd hKind (hDirective text)

end

------------------------------------------------------------
-- The Lines that Count
------------------------------------------------------------

/- The lines of a program without its comments. -/
def coreLines (p : Program) : List Line :=
  [instructionLine (.jump .br p.entry)] ++ (p.data.map declarationLine
    ++ (p.frames.flatMap (fun f => f.decls.map declarationLine)
    ++ (p.code.map instructionLine ++ [⟨none, .finish⟩])))

theorem filter_comments (layout : Layout) :
    (commentLines layout).filter (fun line => !line.isEmpty) = [] := by
  unfold commentLines
  split <;> rfl

theorem filter_declarations (decls : List Declaration) :
    (decls.map declarationLine).filter (fun line => !line.isEmpty) = decls.map declarationLine := by
  refine filter_eq_self.mpr fun line hLine => ?_
  rcases mem_map.mp hLine with ⟨_, _, rfl⟩
  rfl

theorem instructionLine_statement (h : Fitting i) :
    ∃ m, i.op = .known m ∧
      (instructionLine i).statement = .instruction m (Compile.words i) := by
  cases h with
  | @unary _ m _ _ => exact ⟨m, rfl, ofWords_name m _⟩
  | @branch _ m _ _ _ | @general _ m _ _ _ _ _ _ _ => exact ⟨m, rfl, ofWords_name m _⟩

theorem filter_instructions {code : Code}
    (h : ∀ i ∈ code, Fitting i) :
    (code.map instructionLine).filter (fun line => !line.isEmpty) = code.map instructionLine := by
  refine filter_eq_self.mpr fun line hLine => ?_
  rcases mem_map.mp hLine with ⟨i, hI, rfl⟩
  rcases instructionLine_statement (h i hI) with ⟨_, _, hStatement⟩
  simp [Line.isEmpty, hStatement]

/- Comments and blank lines do not count. -/
theorem filter_body
    (layout : Layout)
    (h : Ready p) :
    (bodyLines layout p ++ [Line.mk none .finish]
        ++ [Line.mk none .empty]).filter (fun line => !line.isEmpty) = coreLines p := by
  have hSource : (if p.source = "" then [] else commentLines layout).filter
        (fun line => !line.isEmpty) = [] := by
    split
    · rfl
    · exact filter_comments layout
  have hBranch := @filter_instructions [.jump .br p.entry] (by
    intro _ hI
    rw [mem_singleton.mp hI]
    exact .branch rfl nofun)
  have hFrames : (p.frames.flatMap fun f =>
          commentLines layout ++ f.decls.map declarationLine).filter
        (fun line => !line.isEmpty) =
        p.frames.flatMap fun f => f.decls.map declarationLine := by
    rw [filter_flatMap]
    refine flatMap_congr fun f _ => ?_
    rw [filter_append, filter_comments, filter_declarations]
    rfl
  unfold bodyLines coreLines
  simp only [filter_append, hSource, filter_comments,
    filter_declarations, hFrames, filter_instructions h.fitting]
  rw [map_singleton] at hBranch
  rw [hBranch]
  simp only [nil_append, append_nil, append_assoc]
  rfl

/- Every name of a program is a label of its listing. -/
theorem exists_line (h : name ∈ names p) :
    ∃ line ∈ coreLines p, line.label = some name := by
  unfold coreLines
  rcases mem_append.mp h with hData | hRest
  · rcases mem_map.mp hData with ⟨d, hD, rfl⟩
    refine ⟨declarationLine d, ?_, rfl⟩
    exact mem_append_right _ (mem_append_left _ (mem_map_of_mem hD))
  · rcases mem_append.mp hRest with hLabel | hFrame
    · rcases Compile.mem_labels.mp hLabel with ⟨hSome, i, hI, rfl⟩
      refine ⟨instructionLine i, ?_, if_neg hSome⟩
      exact mem_append_right _ (mem_append_right _
        (mem_append_right _ (mem_append_left _ (mem_map_of_mem hI))))
    · rcases mem_flatMap.mp hFrame with ⟨f, hF, hName⟩
      rcases mem_map.mp hName with ⟨d, hD, rfl⟩
      refine ⟨declarationLine d, ?_, rfl⟩
      exact mem_append_right _ (mem_append_right _
        (mem_append_left _ (mem_flatMap.mpr ⟨f, hF, mem_map_of_mem hD⟩)))

/- What an assembled listing consists of. -/
structure Laid (p : Program) (known : Symbols) (bytes : List UInt8) : Prop where
  proper : known.Proper (names p)
  labelled : Labelled known 0 (coreLines p)
  encoded : Encoded known (coreLines p) bytes

/- The lines that count are laid out one by one. -/
theorem laid_of_listing
    (hReady : Ready p)
    (hSource : layout.comments = true → '\n' ∉ p.source.toList)
    (h : assemble .empty (p.listing layout) = (known, .ok object)) :
    Laid p known object.bytes := by
  have hReads := reads_program layout hReady hSource
  have hOne := ne_newline_of_reads hReads
  have hLast := reads_nothing layout
  rcases assemble_passes h with ⟨_, hContents, hLabelled, hOnly, hEncoded⟩
  rw [listing_eq, joined, lines_join hOne] at hContents
  rcases contents_eq (rel_append hReads (.cons hLast .nil)) hContents with ⟨rfl, hSymbols⟩
  have hCore := filter_body layout hReady
  refine ⟨⟨fun name hName => ?_, fun v => ?_⟩, ?_, ?_⟩
  · rcases exists_line hName with ⟨line, hLine, hLabel⟩
    rw [← hCore] at hLine
    exact hSymbols line (mem_filter.mp hLine).1 name hLabel
  · refine hOnly _ fun line hLine hLabel => ?_
    have hSymbol := hSymbols line hLine _ hLabel
    rw [not_isSymbol_toString] at hSymbol
    cases hSymbol
  · rw [← hCore]
    exact labelled_filter hLabelled
  · rw [← hCore]
    exact encoded_filter hEncoded

theorem sum_sizes {line : α → Line} {bytesOf : α → List UInt8} {xs : List α}
    (h : ∀ x ∈ xs, (line x).statement.size = (bytesOf x).length) :
    ((xs.map line).map fun l => l.statement.size).sum = (xs.flatMap bytesOf).length := by
  rw [length_flatMap, map_map]
  exact congrArg List.sum (map_congr_left h)

theorem value_of_lookup (h : symbols.lookup? name = some w) :
    symbols.value name = w := by
  unfold Symbols.value
  rw [h]
  rfl

theorem declaration_goes (h : ∀ text, d.directive ≠ .other text) :
    (declarationLine d).statement ≠ .finish := by
  unfold declarationLine
  cases hKind : d.directive with
  | equate | word | block => nofun
  | other text => exact absurd hKind (h text)

theorem instruction_goes (h : Fitting i) :
    (instructionLine i).statement ≠ .finish := by
  rcases instructionLine_statement h with ⟨_, _, hStatement⟩
  rw [hStatement]
  nofun

theorem value_of_equate
    (hEquate : d.directive = .equate)
    (h :
      ∃ w, (declarationLine d).statement.value? address = some w ∧
        symbols.lookup? d.name = some w) :
    symbols.value d.name = UInt16.ofInt d.value.toInt := by
  rcases h with ⟨w, hValue, hLookup⟩
  unfold declarationLine at hValue
  rw [hEquate] at hValue
  change readWord? (toString d.value) = some w at hValue
  rw [readWord?_toString] at hValue
  split at hValue
  · cases hValue
  · rw [value_of_lookup hLookup]
    exact (Option.some.inj hValue).symm

theorem value_of_place
    (hDirective : ∀ text, d.directive ≠ .other text)
    (hPlace : d.directive ≠ .equate)
    (h :
      ∃ w, (declarationLine d).statement.value? address = some w ∧
        symbols.lookup? d.name = some w) :
    symbols.value d.name = UInt16.ofNat address := by
  rcases h with ⟨_, hValue, hLookup⟩
  rw [value_of_lookup hLookup]
  unfold declarationLine at hValue
  cases hKind : d.directive with
  | equate => exact absurd hKind hPlace
  | word | block =>
    rw [hKind] at hValue
    exact (Option.some.inj hValue).symm
  | other text => exact absurd hKind (hDirective text)

/- A label has the address of its instruction. -/
theorem value_of_label
    (hFitting : Fitting i)
    (hSome : i.label ≠ "")
    (h :
      ∀ label, (instructionLine i).label = some label →
        ∃ w, (instructionLine i).statement.value? address = some w ∧
          symbols.lookup? label = some w) :
    symbols.value i.label = UInt16.ofNat address := by
  rcases h i.label (if_neg hSome) with ⟨_, hValue, hLookup⟩
  rcases instructionLine_statement hFitting with ⟨_, _, hStatement⟩
  rw [hStatement] at hValue
  rw [value_of_lookup hLookup]
  exact (Option.some.inj hValue).symm

/- A label is at the sum of the sizes before it. -/
theorem labelled_at {line : α → Line} {bytesOf : α → List UInt8}
    {before behind : List α} {x : α}
    (hSizes :
      ∀ y ∈ before ++ x :: behind, (line y).statement.size = (bytesOf y).length)
    (h : Labelled symbols address ((before ++ x :: behind).map line)) :
    ∀ label, (line x).label = some label → ∃ w, (line x).statement.value?
            (address + (before.flatMap bytesOf).length) = some w ∧
          symbols.lookup? label = some w := by
  rw [map_append, labelled_append, sum_sizes fun y hY =>
    hSizes y (mem_append_left _ hY)] at h
  exact h.2.1

/- The parts of an assembled program, with their sizes. -/
structure LaidParts (p : Program) (known : Symbols) (bytes : List UInt8) : Prop where
  bytes_eq : bytes = instructionBytes known.value (.jump .br p.entry)
        ++ (dataBytes p.data ++ codeBytes known.value p.code)
  dataSizes : ∀ d ∈ p.data, (declarationLine d).statement.size = (declarationBytes d).length
  slotSizes : ∀ d ∈ p.frames.flatMap Frame.decls,
      (declarationLine d).statement.size = (declarationBytes d).length
  codeSizes : ∀ i ∈ p.code, (instructionLine i).statement.size =
        (instructionBytes known.value i).length
  data : Labelled known dataStart (p.data.map declarationLine)
  slots : Labelled known (codeStart p) ((p.frames.flatMap Frame.decls).map declarationLine)
  code : Labelled known (codeStart p) (p.code.map instructionLine)

variable (hReady : Ready p)
include hReady

/- Storage and code are laid out each on its own. -/
theorem Laid.parts (h : Laid p known bytes) :
    LaidParts p known bytes := by
  have hSlots : ∀ d ∈ p.frames.flatMap Frame.decls, d.directive = .equate := by
    intro d hD
    rcases mem_flatMap.mp hD with ⟨f, hF, hMem⟩
    exact (hReady.frames f hF).2 d hMem
  have hKnown : ∀ d ∈ p.frames.flatMap Frame.decls, ∀ text, d.directive ≠ .other text := by
    intro d hD _ hOther
    cases (hSlots d hD).symm.trans hOther
  have hNone : (p.frames.flatMap Frame.decls).flatMap declarationBytes = [] := by
    refine flatMap_eq_nil_iff.mpr fun d hD => ?_
    unfold declarationBytes
    rw [hSlots d hD]
  have hEntry : ∀ i ∈ [Instruction.jump .br p.entry], Fitting i ∧ ∀ name, i.operand = .symbol name →
        name ∈ names p := by
    intro _ hI
    rw [mem_singleton.mp hI]
    refine ⟨.branch rfl nofun, fun name hName => ?_⟩
    cases hName
    exact hReady.entry
  have hEncoded := h.encoded
  have hLabelled := h.labelled
  unfold coreLines at hEncoded hLabelled
  rw [← map_flatMap] at hEncoded hLabelled
  rw [← map_singleton] at hEncoded hLabelled
  -- The bytes and the sizes of each part.
  rcases encoded_append (forall_mem_map.mpr fun i hI => instruction_goes (hEntry i hI).1)
    hEncoded with ⟨_, _, rfl, hPart₁, hRest₁⟩
  rcases encoded_append (forall_mem_map.mpr fun d hD => declaration_goes (hReady.data d hD))
    hRest₁ with ⟨_, _, rfl, hPart₂, hRest₂⟩
  rcases encoded_append (forall_mem_map.mpr fun d hD => declaration_goes (hKnown d hD))
    hRest₂ with ⟨_, _, rfl, hPart₃, hRest₃⟩
  rcases encoded_append (forall_mem_map.mpr fun i hI => instruction_goes (hReady.fitting i hI))
    hRest₃ with ⟨_, rest₄, rfl, hPart₄, hRest₄⟩
  have hEnd : rest₄ = [] := by
    cases hRest₄ with
    | finish => rfl
    | line hGoes => exact absurd rfl hGoes
  rcases encoded_map (fun i hI => instruction_goes (hEntry i hI).1) (fun i hI _ hBytes =>
      encode_instruction h.proper (hEntry i hI).1 (hEntry i hI).2 hBytes)
    hPart₁ with ⟨rfl, hSizes₁⟩
  rcases encoded_map (fun d hD => declaration_goes (hReady.data d hD))
    (fun d hD _ hBytes => encode_declaration h.proper (hReady.data d hD) hBytes)
    hPart₂ with ⟨rfl, hSizes₂⟩
  rcases encoded_map (fun d hD => declaration_goes (hKnown d hD))
    (fun d hD _ hBytes => encode_declaration h.proper (hKnown d hD) hBytes)
    hPart₃ with ⟨rfl, hSizes₃⟩
  rcases encoded_map (fun i hI => instruction_goes (hReady.fitting i hI)) (fun i hI _ hBytes =>
      encode_instruction h.proper (hReady.fitting i hI) (hReady.operands i hI) hBytes)
    hPart₄ with ⟨rfl, hSizes₄⟩
  -- The addresses of each part.
  rcases labelled_append.mp hLabelled with ⟨_, hLabelled₁⟩
  rcases labelled_append.mp hLabelled₁ with ⟨hData, hLabelled₂⟩
  rcases labelled_append.mp hLabelled₂ with ⟨hFrames, hLabelled₃⟩
  rcases labelled_append.mp hLabelled₃ with ⟨hCode, _⟩
  rw [sum_sizes hSizes₁] at hData hFrames hCode
  rw [sum_sizes hSizes₂] at hFrames hCode
  rw [sum_sizes hSizes₃, hNone] at hCode
  refine ⟨?_, hSizes₂, hSizes₃, hSizes₄, hData, hFrames, hCode⟩
  rw [hEnd, hNone, flatMap_singleton, append_nil, nil_append]
  rfl

/- The object code of a listing is that of its program. -/
theorem Laid.image (h : Laid p known bytes) :
    Image p known.value bytes := by
  have parts := h.parts hReady
  refine ⟨parts.bytes_eq, ?_, ?_, ?_⟩
  · intro _ i _ hCode hSome
    have hSizes := parts.codeSizes
    have hLabels := parts.code
    rw [hCode] at hSizes hLabels
    refine value_of_label (hReady.fitting i ?_) hSome (labelled_at hSizes hLabels)
    rw [hCode]
    exact mem_append_right _ mem_cons_self
  · intro _ d _ hData hPlace
    have hSizes := parts.dataSizes
    have hLabels := parts.data
    rw [hData] at hSizes hLabels
    refine value_of_place (hReady.data d ?_) hPlace (labelled_at hSizes hLabels d.name rfl)
    rw [hData]
    exact mem_append_right _ mem_cons_self
  · rintro d (hD | ⟨f, hF, hD⟩) hEquate
    · rcases append_of_mem hD with ⟨_, _, hData⟩
      have hSizes := parts.dataSizes
      have hLabels := parts.data
      rw [hData] at hSizes hLabels
      exact value_of_equate hEquate (labelled_at hSizes hLabels d.name rfl)
    · have hMem : d ∈ p.frames.flatMap Frame.decls := mem_flatMap.mpr ⟨f, hF, hD⟩
      rcases append_of_mem hMem with ⟨_, _, hSlots⟩
      have hSizes := parts.slotSizes
      have hLabels := parts.slots
      rw [hSlots] at hSizes hLabels
      exact value_of_equate hEquate (labelled_at hSizes hLabels d.name rfl)

/- What is assembled is an image of the program. -/
theorem image_of_listing
    (hSource : layout.comments = true → '\n' ∉ p.source.toList)
    (h : assemble .empty (p.listing layout) = (known, .ok object)) :
    Image p known.value object.bytes := (laid_of_listing hReady hSource h).image hReady

end Assembly

end Pep9
