import Pep9.Assembly.Assembler
import Pep9.Proofs.Compile.Whole

/-
  Compiled programs are closed. Their names are distinct and
  short, what they jump to and what they use is there, and
  the assembler has all their instructions.

  Key theorems: `Placed.fitting`, `Emits.jumpsWithin`,
  `compile_closed`.
-/

namespace Pep9

open List
open Isa (Mnemonic Addressing)
open Listing (Instruction Declaration Program Mode)
open Script (Stmt)

variable {body : List Stmt} {code : Code} {op : Listing.Operation}

namespace Compile

variable {mode : Mode} {addressing : Addressing} {m : Mnemonic}
  {label name : String} {ctx : Context} {b : Binding} {g g' : Generator}

/- The words behind the name of an instruction in a listing. -/
def words (i : Instruction) : List String :=
  match i.operand with
  | .absent => []
  | operand =>
    if i.mode = .none then
      [operand.text]
    else
      [operand.text, i.mode.text]

/-
  The assembler takes an instruction as soon as its operand,
  if it has one, stands for a word.
-/
def Accepted (i : Instruction) : Prop :=
  ∃ m, i.op = .known m ∧ ∀ symbols, (i.operand ≠ .absent →
        ∃ word, Assembly.resolve symbols i.operand.text = .ok word) →
      ∃ bytes, Assembly.encodeInstruction symbols m (words i) = .ok bytes

/- Exactly one instruction has the label. -/
def LabelsOne (code : Code) (label : String) : Prop :=
  code.countP (fun i => i.label = label) = 1

/-
  A program whose names are distinct and short, and which
  jumps only to its own labels and uses only its own names.
-/
structure Closed (p : Program) : Prop where
  distinct : (names p).Nodup
  short : ∀ name ∈ names p, name.utf8ByteSize ≤ Assembly.longestSymbol
  entry : LabelsOne p.code p.entry
  jumps : ∀ i ∈ p.code, ∀ m, i.op = .known m → m.form = .branch →
      ∃ target, i.operand = .symbol target ∧ LabelsOne p.code target
  operands : ∀ i ∈ p.code, ∀ m name, i.op = .known m → m.form ≠ .branch → i.operand = .symbol name →
        name ∈ p.data.map Declaration.name ∨ name ∈ frameNames p.frames
  accepted : ∀ i ∈ p.code, Accepted i
  stores : ∀ i ∈ p.code, ∀ m, i.op = .known m → m.writesOperand = true → i.mode ≠ .immediate ∧
        ∀ d ∈ p.data, d.directive = .equate → i.operand ≠ .symbol d.name

/- An instruction of a form that the machine has. -/
inductive Fitting : Instruction → Prop where
  | unary {label : String} {m : Mnemonic} {mode : Mode} (hForm : m.form = .unary) :
      Fitting ⟨label, .known m, .absent, mode⟩
  | branch {label : String} {m : Mnemonic} {operand : Listing.Operand} (hForm : m.form = .branch)
      (hOperand : operand ≠ .absent) : Fitting ⟨label, .known m, operand, .none⟩
  | general {label : String} {m : Mnemonic} {operand : Listing.Operand}
      {mode : Mode} {addressing : Addressing} (hForm : m.form = .general)
      (hOperand : operand ≠ .absent) (hMode : mode.addressing? = some addressing)
      (hWrite : addressing = .immediate → m.writesOperand = false) :
      Fitting ⟨label, .known m, operand, mode⟩

theorem ofSuffix?_text (h : mode.addressing? = some addressing) :
    Addressing.ofSuffix? mode.text = some addressing := by
  cases mode <;> cases h <;> rfl

theorem generalField_eq
    (h : mode.addressing? = some addressing)
    (hWrite : addressing = .immediate → m.writesOperand = false) :
    Assembly.generalField m mode.text = .ok addressing.field := by
  unfold Assembly.generalField
  rw [ofSuffix?_text h]
  refine if_neg ?_
  rintro ⟨hImmediate, hWrites⟩
  rw [hWrite hImmediate] at hWrites
  cases hWrites

section

variable {operand : Listing.Operand} (hOperand : operand ≠ .absent)
include hOperand

theorem words_branch : words ⟨label, op, operand, .none⟩ = [operand.text] := by
  cases operand with
  | absent => exact absurd rfl hOperand
  | number | symbol => rfl

theorem words_general (hMode : mode.addressing? = some addressing) :
    words ⟨label, op, operand, mode⟩ = [operand.text, mode.text] := by
  have hSome : mode ≠ .none := by
    rintro rfl
    cases hMode
  unfold words
  cases operand with
  | absent => exact absurd rfl hOperand
  | number | symbol => exact if_neg hSome

end

variable {i : Instruction} {before behind : Code}

/- The assembler accepts what has the form of its mnemonic. -/
theorem Fitting.accepted (h : Fitting i) : Accepted i := by
  cases h with
  | @unary _ m _ hForm =>
    refine ⟨m, rfl, fun symbols _ => ⟨[m.opcode], ?_⟩⟩
    unfold Assembly.encodeInstruction
    rw [hForm]
    rfl
  | @branch _ m _ hForm hOperand =>
    refine ⟨m, rfl, fun symbols hResolved => ?_⟩
    rcases hResolved hOperand with ⟨word, hWord⟩
    refine ⟨(m.opcode ||| 0) :: Assembly.bytesOfWord word, ?_⟩
    unfold Assembly.encodeInstruction
    rw [hForm, words_branch hOperand]
    change Assembly.encodeWith symbols m 0 _ = _
    unfold Assembly.encodeWith
    rw [hWord]
    rfl
  | @general _ m operand mode addressing hForm hOperand hMode hWrite =>
    refine ⟨m, rfl, fun symbols hResolved => ?_⟩
    rcases hResolved hOperand with ⟨word, hWord⟩
    refine ⟨(m.opcode ||| addressing.field) :: Assembly.bytesOfWord word, ?_⟩
    unfold Assembly.encodeInstruction
    rw [hForm, words_general hOperand hMode]
    change (do
      Assembly.encodeWith symbols m (← Assembly.generalField m mode.text) operand.text) = _
    rw [generalField_eq hMode hWrite]
    change Assembly.encodeWith symbols m addressing.field _ = _
    unfold Assembly.encodeWith
    rw [hWord]
    rfl

theorem not_indexed_of_immediate (h : mode.addressing? = some .immediate) :
    mode.isIndexed = false := by
  cases mode <;> cases h
  rfl

theorem writes_general (h : m.writesOperand = true) : m.form = .general := by
  cases m <;> first | rfl | cases h

theorem Fitting.not_immediate
    (h : Fitting i)
    (hOp : i.op = .known m)
    (hWrites : m.writesOperand = true) :
    i.mode ≠ .immediate := by
  rintro hMode
  cases h with
  | unary hForm =>
    cases hOp
    cases hForm.symm.trans (writes_general hWrites)
  | branch => cases hMode
  | general _ _ hAddressing hRead =>
    cases hOp
    cases hMode
    cases hAddressing
    rw [hRead rfl] at hWrites
    cases hWrites

/- How a name is addressed: only constants are immediate. -/
theorem Context.mode_addressing
    (ctx : Context)
    (name : String)
    (b : Binding) :
    ∃ addressing, (ctx.mode name b).addressing? = some addressing ∧
        (addressing = .immediate → isConstantName name = true) := by
  unfold Context.mode
  split
  · next hConstant =>
    rw [Bool.and_eq_true] at hConstant
    exact ⟨.immediate, rfl, fun _ => hConstant.1⟩
  · repeat' split
    all_goals exact ⟨_, rfl, nofun⟩

theorem Use.fitting (h : Use ctx before i behind) : Fitting i := by
  cases h with
  | unary hForm => exact .unary hForm
  | number hForm hMode =>
    rcases hMode with ⟨rfl, hRead⟩ | rfl
    · exact .general hForm nofun rfl fun _ => hRead
    · exact .general hForm nofun rfl nofun
  | read hRead hRef =>
    rcases reference_eq_ok hRef with ⟨b, _, rfl⟩
    rcases ctx.mode_addressing _ b with ⟨_, hMode, _⟩
    exact .general hRead.form nofun hMode fun _ => hRead.unwritten
  | write hForm hRef hKept =>
    rcases reference_eq_ok hRef with ⟨b, _, rfl⟩
    rcases ctx.mode_addressing _ b with ⟨_, hMode, hOnly⟩
    refine .general hForm nofun hMode ?_
    rintro rfl
    rcases hKept with hName | hIndexed
    · rw [hOnly rfl] at hName
      cases hName
    · rw [not_indexed_of_immediate hMode] at hIndexed
      cases hIndexed
  | returned | pointer => exact .general rfl nofun rfl nofun
  | base | offset => exact .general rfl nofun rfl fun _ => rfl
  | call => exact .branch rfl nofun

theorem Placed.fitting {w : Outlook} {home : Option String}
    (h : Placed w home before i behind) :
    Fitting i := by
  cases h with
  | jump hForm => exact .branch hForm nofun
  | use _ _ hUse => exact hUse.fitting

/- The only uses that branch are calls. -/
theorem Use.branch
    (h : Use ctx before i behind)
    (hOp : i.op = .known m)
    (hForm : m.form = .branch) :
    m = .call ∧ ∃ name given callee,
      ctx.callee name given = .ok callee ∧ i.operand = .symbol callee.label := by
  cases h with
  | call hCallee =>
    cases hOp
    exact ⟨rfl, _, _, _, hCallee, rfl⟩
  | unary hOther | number hOther | write hOther =>
    cases hOp
    cases hForm.symm.trans hOther
  | read hRead =>
    cases hOp
    cases hForm.symm.trans hRead.form
  | returned | pointer | base | offset =>
    cases hOp
    cases hForm

------------------------------------------------------------
-- Names in Use
------------------------------------------------------------

/-
  How an instruction uses a binding: as its name is addressed,
  as the place of a result, or to compute the address of an
  array.
-/
inductive Mention (ctx : Context) (b : Binding) : Code → Instruction → Code → Prop where
  | named {before behind : Code} {i : Instruction} (hMode : i.mode = ctx.mode b.source b) :
      Mention ctx b before i behind
  | returned {before behind : Code} {i : Instruction} (hSource : b.source = returnSource)
      (hInside : ctx.function.isSome = true) (hMode : i.mode = .stackRelative) :
      Mention ctx b before i behind
  | pointer {before behind : Code} {i : Instruction}
      (hArray : ctx.mode b.source b = .stackDeferredIndexed) (hMode : i.mode = .stackRelative) :
      Mention ctx b before i behind
  | base {before behind : Code} {i : Instruction} {slot : Int64}
      (hArray : ctx.mode b.source b = .indexed) (hMode : i.mode = .immediate)
      (hOp : i.op = .known .ldwa) (hNext : behind.head? = some (Context.storeAt slot)) :
      Mention ctx b before i behind
  | offset {before behind : Code} {i previous : Instruction}
      (hArray : ctx.mode b.source b = .stackIndexed) (hMode : i.mode = .immediate)
      (hOp : i.op = .known .adda) (hLast : before.getLast? = some previous)
      (hPrevious : previous.op = .known .movspa) : Mention ctx b before i behind

theorem reference_binding {ref : Reference}
    (h : ctx.reference name = .ok ref) :
    ∃ b ∈ ctx.table.data, ref = ⟨b.target, ctx.mode b.source b⟩ := by
  rcases reference_eq_ok h with ⟨b, hFound, rfl⟩
  rcases Bindings.find_eq_some hFound with ⟨hB, rfl⟩
  exact ⟨b, hB, rfl⟩

/- An operand that is a symbol is one in sight. -/
theorem Use.mention
    (h : Use ctx before i behind)
    (hOp : i.op = .known m)
    (hForm : m.form ≠ .branch)
    (hOperand : i.operand = .symbol name) :
    ∃ b ∈ ctx.table.data, b.target = name ∧ Mention ctx b before i behind := by
  cases h with
  | unary | number => cases hOperand
  | read _ hRef | write _ hRef =>
    cases hOperand
    rcases reference_binding hRef with ⟨b, hB, rfl⟩
    exact ⟨b, hB, rfl, .named rfl⟩
  | returned hInside hSlot =>
    cases hOperand
    rcases dataTarget_eq_ok hSlot with ⟨b, hFound, hTarget⟩
    rcases Bindings.find_eq_some hFound with ⟨hB, hSource⟩
    exact ⟨b, hB, hTarget, .returned hSource hInside rfl⟩
  | pointer hRef hMode =>
    cases hOperand
    rcases reference_binding hRef with ⟨b, hB, rfl⟩
    exact ⟨b, hB, rfl, .pointer hMode rfl⟩
  | base hRef hMode hNext =>
    cases hOperand
    rcases reference_binding hRef with ⟨b, hB, rfl⟩
    exact ⟨b, hB, rfl, .base hMode rfl rfl hNext⟩
  | offset hRef hMode hLast hPrevious =>
    cases hOperand
    rcases reference_binding hRef with ⟨b, hB, rfl⟩
    exact ⟨b, hB, rfl, .offset hMode rfl rfl hLast hPrevious⟩
  | call =>
    cases hOp
    exact absurd rfl hForm

/- What is written to is a variable, an array or a result. -/
def Context.Writable (ctx : Context) (b : Binding) : Prop :=
  isConstantName b.source = false ∨ b.target ∈ ctx.arrays ∨ b.source = returnSource

theorem Context.mem_arrays_of_indexed (h : (ctx.mode name b).isIndexed = true) :
    b.target ∈ ctx.arrays := by
  unfold Context.mode at h
  split at h
  · cases h
  · split at h
    · next hArray => exact contains_iff_mem.mp hArray
    · split at h <;> cases h

theorem Use.writable
    (h : Use ctx before i behind)
    (hOp : i.op = .known m)
    (hWrites : m.writesOperand = true)
    (hOperand : i.operand = .symbol name) :
    ∃ b ∈ ctx.table.data, b.target = name ∧ ctx.Writable b := by
  cases h with
  | unary | number => cases hOperand
  | read hRead =>
    cases hOp
    cases hWrites.symm.trans hRead.unwritten
  | write _ hRef hKept =>
    cases hOperand
    rcases reference_eq_ok hRef with ⟨b, hFound, rfl⟩
    rcases Bindings.find_eq_some hFound with ⟨hB, rfl⟩
    refine ⟨b, hB, rfl, ?_⟩
    rcases hKept with hName | hIndexed
    · exact .inl hName
    · exact .inr (.inl (Context.mem_arrays_of_indexed hIndexed))
  | returned _ hSlot =>
    cases hOperand
    rcases dataTarget_eq_ok hSlot with ⟨b, hFound, hTarget⟩
    rcases Bindings.find_eq_some hFound with ⟨hB, hSource⟩
    exact ⟨b, hB, hTarget, .inr (.inr hSource)⟩
  | pointer | base | offset | call =>
    cases hOp
    cases hWrites

/- Code that jumps, apart from calls, only to some labels. -/
def JumpsWithin (targets : List String) (code : Code) : Prop :=
  ∀ i ∈ code, ∀ m, i.op = .known m → m.form = .branch → m ≠ .call →
    ∃ target ∈ targets, i.operand = .symbol target

namespace JumpsWithin

variable {targets others : List String} {first second : Code}

theorem nil : JumpsWithin targets [] := by
  intro _ hI
  cases hI

theorem append
    (hFirst : JumpsWithin targets first)
    (hSecond : JumpsWithin targets second) :
    JumpsWithin targets (first ++ second) := forall_mem_append.mpr ⟨hFirst, hSecond⟩

theorem mono
    (h : JumpsWithin targets first)
    (hTargets : ∀ target ∈ targets, target ∈ others) :
    JumpsWithin others first := by
  intro i hI m hOp hForm hCall
  rcases h i hI m hOp hForm hCall with ⟨target, hTarget, hOperand⟩
  exact ⟨target, hTargets target hTarget, hOperand⟩

theorem of_uses (h : Everywhere (Use ctx) first) :
    JumpsWithin targets first := by
  intro _ hI _ hOp hForm hCall
  rcases h.of_mem hI with ⟨_, _, hUse⟩
  exact absurd (hUse.branch hOp hForm).1 hCall

theorem jump {target : String}
    (h : target ∈ targets) :
    JumpsWithin targets [.jump m target] := by
  intro _ hI _ _ _ _
  rw [mem_singleton.mp hI]
  exact ⟨target, h, rfl⟩

theorem unary (hForm : m.form = .unary) :
    JumpsWithin targets [⟨label, .known m, .absent, .none⟩] := by
  intro _ hI _ hOp hBranch _
  rw [mem_singleton.mp hI] at hOp
  cases hOp
  cases hForm.symm.trans hBranch

theorem mark (label : String) : JumpsWithin targets [mark label] := unary rfl

theorem condition {exit : String} {test : Script.Expr}
    (hExit : exit ∈ targets)
    (h : ctx.conditionCode label exit test = .ok first) :
    JumpsWithin targets first := by
  rcases conditionCode_uses h with ⟨_, _, rfl, _, _, hUses⟩
  exact (of_uses hUses).append (jump hExit)

theorem wrap {entry : Generator.Entry}
    (ctx : Context)
    (hLanding : entry.landing ∈ targets)
    (h : JumpsWithin targets first) :
    JumpsWithin targets (entry.wrap body first) := by
  have hAdjust : ∀ {m : Mnemonic} (bytes : Int64), m = .subsp ∨ m = .addsp →
        JumpsWithin targets (adjustStack m bytes) :=
    fun {m} bytes hOp =>
      of_uses (show Emitted ctx (adjustStack m bytes) from emitted_adjustStack bytes hOp).uses
  refine .append (.append (.append (.append (.append (jump hLanding)
    (mark _)) (hAdjust _ (.inl rfl))) h) ?_) (mark _)
  split
  · exact .nil
  · exact .append (hAdjust _ (.inr rfl)) (unary rfl)

end JumpsWithin

theorem landing_nonempty {params : List String} {entry : Generator.Entry}
    (parts : EnterParts g name params body entry g') :
    entry.landing ≠ "" := by
  intro hEq
  have hSupplies := (SymbolTable.generate_supplies isStem_landing parts.landing_eq).1
  rw [hEq] at hSupplies
  exact (hSupplies.targets "" mem_cons_self).nonempty rfl

/- Jumps of a block go to labels of the block. -/
theorem Emits.jumpsWithin {stmts : List Stmt}
    (h : Emits g stmts code g') :
    JumpsWithin (labels code) code := by
  induction h with
  | nil => exact .nil
  | plain hFirst _ ih =>
    refine (JumpsWithin.of_uses hFirst.emitted.uses).append (ih.mono ?_)
    intro _ hTarget
    rw [labels_append]
    exact mem_append_right _ hTarget
  | guarded hLabels hTest _ _ ihBody ihRest =>
    have hSome := hLabels.takes.nonempty
    simp only [forall_mem_cons] at hSome
    have hTarget := hLabels.target_mem
    simp only [mem_cons, not_mem_nil, or_false] at hTarget
    refine .append (.append (.append (.condition ?_ hTest)
      (ihBody.mono ?_)) (.append (.jump ?_) (.mark _))) (ihRest.mono ?_)
    all_goals
      simp +contextual only [labels_append, mem_append,
        labels_condition hSome.1 hTest, labels_jump_mark hSome.2.1,
        mem_singleton, true_or, or_true, implies_true]
    rcases hTarget with rfl | rfl <;> simp
  | condElse _ hLabels hTest _ _ _ ihBody ihElse ihRest =>
    have hSome := hLabels.takes.nonempty
    simp only [forall_mem_cons] at hSome
    refine .append (.append (.append (.append (.append (.condition ?_ hTest) (ihBody.mono ?_))
      (.append (.jump ?_) (.mark _))) (ihElse.mono ?_)) (.mark _)) (ihRest.mono ?_)
    all_goals
      simp +contextual only [labels_append, mem_append,
        labels_jump_mark hSome.2.2.1, labels_mark hSome.2.1,
        mem_singleton, true_or, or_true, implies_true]
  | @define g _ _ _ _ _ _ _ _ _ _ _ hEnter _ _ ihBody ihRest =>
    rcases enter_parts hEnter with ⟨parts⟩
    refine .append (.wrap g.context ?_ (ihBody.mono ?_)) (ihRest.mono ?_)
    all_goals
      simp +contextual only [labels_append, mem_append,
        Generator.Entry.wrap, labels_mark (landing_nonempty parts),
        mem_singleton, true_or, or_true, implies_true]

------------------------------------------------------------
-- Compiled Programs
------------------------------------------------------------

section Parts

variable {options : Options} {stmts : List Stmt} {compiled : Compiled}
  {parts : Parts options .empty stmts compiled}

theorem labelsOne_of_mem
    (hNodup : (labels code).Nodup)
    (hLabel : label ∈ labels code) :
    LabelsOne code label := by
  have hSome := (mem_labels.mp hLabel).1
  have hOne := count_eq_one_of_mem hNodup hLabel
  unfold labels at hOne
  rw [count_filter (by simpa using hSome), List.count, countP_map] at hOne
  unfold LabelsOne
  rw [← hOne]
  refine countP_congr fun i _ => ?_
  simp

theorem Facts.called
    (facts : Facts parts)
    (hI : i ∈ compiled.program.code)
    (hOp : i.op = .known .call) :
    ∃ target ∈ labels compiled.program.code, i.operand = .symbol target := by
  rcases facts.placed.of_mem hI with ⟨_, _, hPlaced⟩
  cases hPlaced with
  | jump _ hCall =>
    cases hOp
    exact absurd rfl hCall
  | use hSight _ hUse =>
    rcases hUse.branch hOp rfl with ⟨_, _, _, _, hCallee, hOperand⟩
    rcases (callee_facts hCallee).bound with ⟨b, hB, _, hTarget⟩
    rcases hSight.calls b hB with ⟨outer, hOuter, _, hSame⟩
    refine ⟨outer.target, facts.functions outer hOuter, ?_⟩
    rw [hOperand, hSame, hTarget]

theorem Facts.declared
    (facts : Facts parts)
    (hSight : parts.outlook.Sees ctx)
    (hB : b ∈ ctx.table.data) :
    (b ∈ parts.bound.data ∧
      b.target ∈ compiled.program.data.map Declaration.name) ∨
      b.target ∈ frameNames compiled.program.frames := by
  rcases hSight.data b hB with ⟨hGlobal, _⟩ | ⟨_, _, _, f, hF, _, _, hD, hName⟩
  · refine .inl ⟨hGlobal, ?_⟩
    rw [← facts.allocated.targets]
    exact mem_map_of_mem hGlobal
  · refine .inr (mem_flatMap.mpr ⟨f, hF, ?_⟩)
    rw [← hName]
    exact mem_map_of_mem hD

theorem Facts.not_equate {d : Declaration}
    (facts : Facts parts)
    (hSight : parts.outlook.Sees ctx)
    (hB : b ∈ ctx.table.data)
    (hWritable : ctx.Writable b)
    (hD : d ∈ compiled.program.data)
    (hEquate : d.directive = .equate) :
    b.target ≠ d.name := by
  intro hName
  rcases facts.declared hSight hB with ⟨hGlobal, _⟩ | hFrame
  · rcases facts.variable hGlobal with ⟨v, hVar⟩
    have hSource : b.source = v.name := congrArg Binding.source hVar.binding
    have hEq : d = v.storage.declaration b.target := by
      refine facts.declaration_eq hD hVar.declared ?_
      rw [Storage.declaration_name, hName]
    have hFits := hVar.fits
    have hArray := (hSight.arrays b hGlobal).trans hVar.array
    have hIdentifier := facts.wellformed.identifiers v hVar.mem
    -- Only the storage of a constant is declared so.
    cases hStorage : v.storage with
    | constant =>
      rw [hStorage] at hFits hArray
      rcases hWritable with hKept | hKept | hKept
      · rw [hSource, show isConstantName v.name = true from hFits] at hKept
        cases hKept
      · cases hArray.mp hKept
      · rw [← hSource, hKept] at hIdentifier
        exact not_isIdentifier_returnSource hIdentifier
    | uninitialized | value | array =>
      rw [hEq, hStorage] at hEquate
      cases hEquate
  · rw [hName] at hFrame
    exact (facts.names_apart.1 d.name (mem_map_of_mem hD)).2 hFrame

theorem Parts.jumpsWithin (parts : Parts options .empty stmts compiled) :
    JumpsWithin (labels compiled.program.code) compiled.program.code := by
  rw [parts.code_eq]
  refine .append (.append (.mark _) (parts.emits.jumpsWithin.mono ?_)) ?_
  · intro _ hTarget
    rw [labels_append, labels_append]
    exact mem_append_left _ (mem_append_right _ hTarget)
  · unfold ending
    split
    · exact .nil
    · exact .unary rfl

theorem Facts.jump
    (facts : Facts parts)
    (hI : i ∈ compiled.program.code)
    (hOp : i.op = .known m)
    (hForm : m.form = .branch) :
    ∃ target ∈ labels compiled.program.code, i.operand = .symbol target := by
  by_cases hCall : m = .call
  · exact facts.called hI (hCall ▸ hOp)
  · exact parts.jumpsWithin i hI m hOp hForm hCall

theorem Facts.closed (facts : Facts parts) : Closed compiled.program := by
  have hCode : (labels compiled.program.code).Nodup :=
    (nodup_append.mp (nodup_append.mp facts.supplies.nodup).2.1).1
  refine ⟨facts.supplies.nodup, ?_, ?_, ?_, ?_, ?_, ?_⟩
  · intro name hName
    exact (facts.supplies.targets name hName).utf8ByteSize_le
  · exact labelsOne_of_mem hCode facts.entry
  · intro _ hI _ hOp hForm
    rcases facts.jump hI hOp hForm with ⟨target, hMem, hOperand⟩
    exact ⟨target, hOperand, labelsOne_of_mem hCode hMem⟩
  · intro _ hI _ _ hOp hForm hOperand
    rcases facts.placed.of_mem hI with ⟨_, _, hPlaced⟩
    cases hPlaced with
    | jump hBranch =>
      cases hOp
      exact absurd hBranch hForm
    | use hSight _ hUse =>
      rcases hUse.mention hOp hForm hOperand with ⟨_, hB, rfl, _⟩
      rcases facts.declared hSight hB with ⟨_, hData⟩ | hFrame
      · exact .inl hData
      · exact .inr hFrame
  · intro _ hI
    rcases facts.placed.of_mem hI with ⟨_, _, hPlaced⟩
    exact hPlaced.fitting.accepted
  · intro _ hI _ hOp hWrites
    rcases facts.placed.of_mem hI with ⟨_, _, hPlaced⟩
    refine ⟨hPlaced.fitting.not_immediate hOp hWrites, ?_⟩
    intro _ hD hEquate hOperand
    cases hPlaced with
    | jump hBranch =>
      cases hOp
      cases hBranch.symm.trans (writes_general hWrites)
    | use hSight _ hUse =>
      rcases hUse.writable hOp hWrites hOperand with ⟨_, hB, hTarget, hWritable⟩
      exact facts.not_equate hSight hB hWritable hD hEquate hTarget

end Parts

theorem compile_closed {options : Options} {source : String}
    {compiled : Compiled}
    (h : compile options source = .ok compiled) :
    Closed compiled.program := by
  rcases compile_generate h with ⟨_, hParsed, hGenerated⟩
  rcases generate_allocated hGenerated with ⟨parts, _⟩
  have hNamed := Script.parseSource_wellNamed hParsed
  exact (facts_of_parts parts hNamed).closed

/- A function, an array and a loop with a conditional. -/
theorem compile_closed_loop :
    ∃ compiled, compile ⟨0, ""⟩
        ("n = 3\nv_ = [0] * 4\ndef f(a, b):\n    return a + b\n"
          ++ "while n > 0:\n    if n == 2:\n        v_[n] = f(n, 1)\n"
          ++ "    else:\n        print(n)\n    n = n - 1\n") = .ok compiled ∧
      Closed compiled.program := by
  refine (Result.isOk_eq_true.mp ?_).imp fun _ h => ⟨h, compile_closed h⟩
  decide +kernel

end Compile

end Pep9
