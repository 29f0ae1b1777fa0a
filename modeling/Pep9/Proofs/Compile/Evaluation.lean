import Pep9.Proofs.Compile.Values

/-
  The values of expressions. The code of an expression, carried
  out on any state of the machine and with any values of names,
  leaves the value of the expression in its register and changes
  nothing else that a program can see.

  Key theorems: `Executing.executes`, `operandCode_reads`,
  `operandCode_executes`, `exprCode_evaluates`.
-/

namespace Pep9

open List
open Assembly (codeBytes operandValue)
open Isa (Mnemonic Addressing)
open Listing (Instruction Mode Program)
open Machine (Fetched Steps)
open Script (Expr)

namespace Compile

/-
  Whether a function of the script is called among the
  operands.
-/
def callsDefined : Expr → Bool
  | .call function args =>
    !builtins.contains function ||
      match args with
      | [arg] => callsDefined arg
      | _ => false
  | .arith _ left right => callsDefined left || callsDefined right
  | _ => false

section

variable {ctx : Context} {P : Register → Expr → Code → Prop}
  (hP : FreeCases ctx P)
include hP

/- What is shown of the forms without calls of functions. -/
theorem FreeCases.exprCases {Q : Int64 → List Expr → Code → Prop}
    (hNone : ∀ {slot}, Q slot [] [])
    (hName : ∀ {slot id rest first others}, ctx.nameArgument slot id = .ok first →
      Q (slot + 2) rest others → Q slot (.name id :: rest) (first ++ others))
    (hValue : ∀ {slot arg rest first others}, hasCall arg = false →
      (callsDefined arg = false → P .a arg first) → Q (slot + 2) rest others →
        Q slot (arg :: rest) (first ++ [Context.storeAt slot] ++ others)) :
    ExprCases ctx (fun r e code => callsDefined e = false → P r e code) Q where
  literal := fun h _ => hP.literal h
  name := fun h _ => hP.name h
  element := fun h _ => hP.element h
  arith := by
    intro _ _ _ _ _ _ _ _ hOp hSimple hFirst h hCalls
    rw [callsDefined, Bool.or_eq_false_iff] at hCalls
    exact hP.arith hOp hSimple (hFirst hCalls.1) h
  int := by
    intro _ _ _ hArg hCalls
    rw [callsDefined, Bool.or_eq_false_iff] at hCalls
    exact hP.int (hArg hCalls.2)
  call := by
    intro _ _ _ _ _ hDefined _ _ _ _ hCalls
    unfold callsDefined at hCalls
    rw [Bool.or_eq_false_iff] at hCalls
    simp only [Bool.not_eq_false', contains_iff_mem] at hCalls
    exact absurd hCalls.1 hDefined
  noArgs := hNone
  nameArg := hName
  valueArg := hValue

theorem FreeCases.expr {r : Register} {e : Expr} {code : Code}
    (h : exprCode ctx r e = .ok code)
    (hCalls : callsDefined e = false) :
    P r e code :=
  (hP.exprCases (Q := fun _ _ _ => True) trivial (fun _ _ => trivial)
    fun _ _ _ => trivial).expr h hCalls

end

/-
  The value of an expression in a state of the machine, given
  the values of names.
-/
def Context.value? (ctx : Context) (value : String → UInt16) (m : Machine) : Expr → Option UInt16
  | .literal n => ctx.word? value m.sp m.memory (.literal n)
  | .name id => ctx.word? value m.sp m.memory (.name id)
  | .index base position => ctx.word? value m.sp m.memory (.index base position)
  | .arith op left right => do
      let first ← ctx.value? value m left
      let second ← ctx.value? value m right
      op.word? first second
  | .call function args =>
    match args with
    | [arg] => if function = "int" then ctx.value? value m arg else none
    | _ => none
  | _ => none

/-
  Some code leads from one state of the machine to another, with
  only the registers and the status bits changed. The machine
  takes the same way where it finds the bytes of the code.
-/
structure Executes (value : String → UInt16) (code : Code) (m last : Machine) : Prop where
  obeys : Machine.obeyAll value code m = (last, none)
  pc : last.pc = m.pc + UInt16.ofNat (codeBytes value code).length
  sp : last.sp = m.sp
  memory : last.memory = m.memory
  output : last.output = m.output
  input : last.input = m.input
  halted : last.halted = m.halted
  steps : m.halted = false → m.memory.Holds m.pc.toNat (codeBytes value code) →
        Steps code.length m last

section Executions

variable {value : String → UInt16} {ctx : Context} {code : Code} {m next last : Machine}

theorem Executes.nil (m : Machine) : Executes value [] m m where
  obeys := rfl
  pc := (UInt16.add_zero m.pc).symm
  sp := rfl
  memory := rfl
  output := rfl
  input := rfl
  halted := rfl
  steps := fun _ _ => .refl m

section

variable {first second : Code} (h : Executes value first m next)
include h

/- The bytes of code are there in both of its parts. -/
theorem Executes.bytes
    (hBytes : m.memory.Holds m.pc.toNat (codeBytes value (first ++ second))) :
    m.memory.Holds m.pc.toNat (codeBytes value first) ∧
      next.memory.Holds next.pc.toNat (codeBytes value second) := by
  unfold codeBytes at hBytes
  rw [flatMap_append, Machine.Memory.holds_append] at hBytes
  refine ⟨hBytes.1, ?_⟩
  rw [h.memory, h.pc]
  refine hBytes.2.wrap ?_
  rw [UInt16.ofNat_toNat, UInt16.ofNat_add, UInt16.ofNat_toNat]
  rfl

theorem Executes.append (h' : Executes value second next last) :
    Executes value (first ++ second) m last where
  obeys := (Machine.obeyAll_append h.obeys).trans h'.obeys
  pc := by
    unfold codeBytes
    rw [flatMap_append, length_append, UInt16.ofNat_add, ← UInt16.add_assoc, h'.pc, h.pc]
    rfl
  sp := h'.sp.trans h.sp
  memory := h'.memory.trans h.memory
  output := h'.output.trans h.output
  input := h'.input.trans h.input
  halted := h'.halted.trans h.halted
  steps := by
    intro hGoes hBytes
    rcases h.bytes hBytes with ⟨hFirst, hSecond⟩
    rw [length_append]
    exact (h.steps hGoes hFirst).trans (h'.steps (h.halted.trans hGoes) hSecond)

end

/-
  Some code leads from one state of the machine to another,
  whatever it changes. The machine takes the same way where it
  finds the bytes of the code.
-/
structure Performs (value : String → UInt16) (code : Code) (m last : Machine) : Prop where
  obeys : Machine.obeyAll value code m = (last, none)
  steps : m.halted = false → m.memory.Holds m.pc.toNat (codeBytes value code) →
        Steps code.length m last

/- Code that changes registers alone is executed in its place. -/
theorem Executing.executes {p : Program} {before behind : Code}
    (h : Executing p value before m)
    (hCode : p.code = before ++ code ++ behind)
    (hRun : Executes value code m next) :
    Steps code.length m next ∧ Executing p value (before ++ code) next := by
  refine ⟨hRun.steps h.goes (h.holds hCode), hRun.halted.trans h.goes, ?_, hRun.memory ▸ h.code⟩
  rw [hRun.pc, h.pc, addressOf_append]

variable {i : Instruction} {r : Register} {operand : Simple}

/-
  One instruction more, which may change the memory: all bytes
  have been fetched by then.
-/
theorem Executes.performs
    (h : Executes value code m next)
    (hFitting : Fitting i)
    (hObey : next.obey value i = (last, none)) :
    Performs value (code ++ [i]) m last where
  obeys := (Machine.obeyAll_append h.obeys).trans (Machine.obeyAll_single hObey)
  steps := by
    intro hGoes hBytes
    rcases h.bytes hBytes with ⟨hFirst, hSecond⟩
    unfold codeBytes at hSecond
    rw [flatMap_singleton] at hSecond
    have hHere : next.halted = false := h.halted.trans hGoes
    rw [length_append]
    refine (h.steps hGoes hFirst).trans (.single hHere ?_)
    exact (Machine.step_eq_obey hFitting hHere hSecond).trans hObey

/- An instruction that changes a register, and only that. -/
structure Puts (value : String → UInt16) (i : Instruction) (r : Register)
    (w : UInt16) (m last : Machine) : Prop where
  executes : Executes value [i] m last
  read : r.read last = w
  other : r.other.read last = r.other.read m

/- An instruction after which only registers and status bits differ. -/
theorem executes_of_obey
    (hFitting : Fitting i)
    (hObey : m.obey value i = (last, none))
    (hPC : last.pc = (m.passed value i).pc)
    (hSP : last.sp = m.sp)
    (hMemory : last.memory = m.memory)
    (hOutput : last.output = m.output)
    (hInput : last.input = m.input)
    (hHalted : last.halted = m.halted) :
    Executes value [i] m last where
  obeys := Machine.obeyAll_single hObey
  pc := by
    unfold codeBytes
    rw [flatMap_singleton, ← Machine.passed_pc value m hFitting]
    exact hPC
  sp := hSP
  memory := hMemory
  output := hOutput
  input := hInput
  halted := hHalted
  steps := by
    intro hGoes hBytes
    unfold codeBytes at hBytes
    rw [flatMap_singleton] at hBytes
    exact .single hGoes ((Machine.step_eq_obey hFitting hGoes hBytes).trans hObey)

theorem executes_mark (label : String) :
    Executes value [mark label] m (m.passed value (mark label)) :=
  executes_of_obey (.unary rfl) rfl rfl rfl rfl rfl rfl rfl

theorem puts_of_set {result : UInt16 × Machine.Flags}
    (hFitting : Fitting i)
    (hObey : m.obey value i = (r.set (m.passed value i) result, none)) :
    Puts value i r result.1 m (r.set (m.passed value i) result) where
  executes := by apply executes_of_obey hFitting hObey <;> cases r <;> rfl
  read := by cases r <;> rfl
  other := by cases r <;> rfl

------------------------------------------------------------
-- Instructions on Registers
------------------------------------------------------------

/- What an instruction makes of a register and its operand. -/
def Applies (value : String → UInt16) (op : Register → Mnemonic)
    (f : UInt16 → UInt16 → Option UInt16) : Prop :=
  ∀ ⦃r : Register⦄ ⦃m : Machine⦄ ⦃operand : Listing.Operand⦄
    ⦃suffix : Mode⦄ ⦃mode : Addressing⦄ ⦃w : UInt16⦄, operand ≠ .absent →
      suffix.addressing? = some mode →
      f (r.read m) (m.operand (operandValue value operand) mode) = some w →
        ∃ last, Puts value (.of (op r) operand suffix) r w m last

section

variable {mn : Mnemonic} {operand : Listing.Operand} {suffix : Mode}
  {mode : Addressing} (hRead : IsRead mn) (hOperand : operand ≠ .absent)
  (hMode : suffix.addressing? = some mode)
include hRead hOperand hMode

theorem IsRead.fitting : Fitting (.of mn operand suffix) :=
  .general hRead.form hOperand hMode fun _ => hRead.unwritten

theorem puts_general {g : UInt16 → UInt16 → UInt16}
    (hExecute : ∀ (m : Machine) (f : Fetched), f.mnemonic = mn → ∃ flags, m.execute f =
            (r.set m (g (r.read m) (m.operand f.spec f.mode), flags), none)) :
    ∃ last, Puts value (.of mn operand suffix) r
        (g (r.read m) (m.operand (operandValue value operand) mode)) m last := by
  have hFitting := hRead.fitting hOperand hMode
  rcases hExecute (m.passed value (.of mn operand suffix)) _
    (Machine.mnemonic_of value m hFitting rfl) with ⟨_, hDone⟩
  rw [Machine.mode_of value m hFitting rfl hRead.form hMode, Machine.read_passed] at hDone
  exact ⟨_, puts_of_set hFitting hDone⟩

end

variable (value) in
theorem applies_load :
    Applies value Register.load fun _ second => some second := by
  intro r m _ _ _ _ hOperand hMode hResult
  cases hResult
  refine puts_general (g := fun _ second => second) (isRead_load r)
    hOperand hMode fun m f hF => ⟨m.flags.ofWord (m.operand f.spec f.mode), ?_⟩
  rw [Machine.execute_eq, hF]
  unfold Machine.executeGeneral
  cases r with
  | a | x =>
    simp only [hF]
    rfl

variable (value) in
theorem applies_arith {op : Script.Arith} {apply : Register → Mnemonic}
    (hOp : arithOp? op = some apply) :
    Applies value apply op.word? := by
  intro r m _ _ _ _ hOperand hMode hResult
  have hRead := isRead_arith hOp r
  cases op with
  | add =>
    cases hOp
    cases hResult
    refine puts_general (g := (· + ·)) hRead hOperand hMode fun m f hF =>
        ⟨(Machine.add (r.read m) (m.operand f.spec f.mode) 0).2, ?_⟩
    rw [Machine.execute_eq, hF]
    unfold Machine.executeGeneral
    cases r with
    | a | x =>
      simp only [hF, ← Machine.add_fst]
      rfl
  | sub =>
    cases hOp
    cases hResult
    refine puts_general (g := (· - ·)) hRead hOperand hMode fun m f hF =>
        ⟨(Machine.subtract (r.read m) (m.operand f.spec f.mode)).2, ?_⟩
    rw [Machine.execute_eq, hF]
    unfold Machine.executeGeneral
    cases r with
    | a | x =>
      simp only [hF, ← Machine.subtract_fst]
      rfl
  | _ => cases hOp

variable (value m) in
theorem puts_scale : ∃ last, Puts value Context.scale .x (2 * m.x) m last := by
  have hFitting : Fitting Context.scale := .unary rfl
  have hObey : m.obey value Context.scale =
      (Register.x.set (m.passed value Context.scale) (Machine.shiftLeft m.x), none) := by
    rfl
  exact ⟨_, puts_of_set hFitting hObey⟩

variable (value m) in
/- The value of a simple operand is that of one instruction. -/
theorem Direct.word {e : Expr} {field : Listing.Operand} {suffix : Mode}
    (hSimple : simple? e = some operand)
    (h : Direct ctx operand field suffix) :
    ∃ mode, field ≠ .absent ∧ suffix.addressing? = some mode ∧
      ctx.word? value m.sp m.memory e = some (m.operand (operandValue value field) mode) := by
  cases h with
  | literal n =>
    obtain rfl : e = .literal n := by
      cases e <;> cases hSimple
      rfl
    exact ⟨.immediate, nofun, rfl, rfl⟩
  | @name id _ hRef hPlain =>
    obtain rfl : e = .name id := by
      cases e <;> cases hSimple
      rfl
    rcases reference_eq_ok hRef with ⟨b, _, rfl⟩
    rcases ctx.mode_addressing id b with ⟨mode, hMode, _⟩
    exact ⟨mode, nofun, hMode, (word?_name hRef).trans (operand_of_plain value m hMode hPlain)⟩

variable (value m) in
/- The offset of an element is twice its index. -/
theorem indexCode_executes {position : Expr}
    (hMade : ctx.indexCode position = .ok code) :
    ∃ index last, ctx.word? value m.sp m.memory position = some index ∧ Executes value code m last ∧
        last.x = 2 * index ∧ last.a = m.a := by
  have hLoaded : ∀ (operand : Listing.Operand) (suffix : Mode) (mode : Addressing),
        operand ≠ .absent → suffix.addressing? = some mode →
          ∃ last, Executes value [.of .ldwx operand suffix, Context.scale] m last ∧
              last.x = 2 * m.operand (operandValue value operand) mode ∧ last.a = m.a := by
    intro _ _ _ hOperand hMode
    rcases applies_load value (r := .x) hOperand hMode rfl with ⟨next, hNext⟩
    rcases puts_scale value next with ⟨last, hLast⟩
    refine ⟨last, hNext.executes.append hLast.executes, ?_, hLast.other.trans hNext.other⟩
    have hIndex : next.x = _ := hNext.read
    rw [← hIndex]
    exact hLast.read
  rcases indexCode_parts hMade with ⟨_, field, suffix, hSimple, hDirect, rfl⟩
  rcases hDirect.word value m hSimple with ⟨mode, hField, hMode, hWord⟩
  rcases hLoaded field suffix mode hField hMode with ⟨last, hLast⟩
  exact ⟨_, last, hWord, hLast⟩

/-
  The code of a simple operand ends with one instruction. All
  before it leads to a state in which that instruction has the
  value of the operand as its own, with the register as it was.
-/
theorem operandCode_reads
    (value : String → UInt16)
    (m : Machine)
    {op : Register → Mnemonic} {e : Expr}
    (hSimple : simple? e = some operand)
    (hMade : ctx.operandCode op r operand = .ok code) :
    ∃ (offset : Code) (next : Machine) (field : Listing.Operand)
      (suffix : Mode) (mode : Addressing), code = offset ++ [.of (op r) field suffix] ∧
        field ≠ .absent ∧ suffix.addressing? = some mode ∧ Executes value offset m next ∧
        r.read next = r.read m ∧ ctx.word? value m.sp m.memory e =
          some (next.operand (operandValue value field) mode) := by
  cases operandCode_parts hMade with
  | @direct _ field suffix hDirect =>
    rcases hDirect.word value m hSimple with ⟨mode, hField, hMode, hWord⟩
    exact ⟨[], m, field, suffix, mode, rfl, hField, hMode, .nil m, rfl, hWord⟩
  | @element base position _ offset hOnly hArray hOffset =>
    subst hOnly
    rcases arrayReference_eq_ok hArray with ⟨id, rfl, hRef, hIndexed⟩
    obtain rfl : e = .index (.name id) position := by
      cases e <;> cases hSimple
      rfl
    rcases reference_eq_ok hRef with ⟨b, _, rfl⟩
    rcases ctx.mode_addressing id b with ⟨mode, hMode, _⟩
    rcases indexCode_executes value m hOffset with ⟨_, next, hIndex, hNext, hX, hA⟩
    rcases operand_of_indexed value next hMode hIndexed with ⟨_, hAddress, hOperand⟩
    rw [hNext.sp, hNext.memory] at hAddress
    refine ⟨offset, next, .symbol b.target, ctx.mode id b, mode, rfl, nofun, hMode, hNext, hA, ?_⟩
    rw [Context.word?, word?_name hRef, hAddress, hIndex]
    refine congrArg some (Eq.trans ?_ hOperand.symm)
    rw [hX, hNext.memory]

variable (m) in
theorem operandCode_executes {op : Register → Mnemonic}
    {f : UInt16 → UInt16 → Option UInt16} {e : Expr}
    (hApplies : Applies value op f)
    (hSimple : simple? e = some operand)
    (hMade : ctx.operandCode op r operand = .ok code) :
    ∃ second, ctx.word? value m.sp m.memory e = some second ∧ ∀ w, f (r.read m) second = some w →
          ∃ last, Executes value code m last ∧ r.read last = w := by
  rcases operandCode_reads value m hSimple hMade with
    ⟨_, _, _, _, _, rfl, hField, hMode, hNext, hKept, hWord⟩
  refine ⟨_, hWord, fun w hW => ?_⟩
  rw [← hKept] at hW
  rcases hApplies hField hMode hW with ⟨last, hLast⟩
  exact ⟨last, hNext.append hLast.executes, hLast.read⟩

theorem value?_of_simple {e : Expr}
    (h : simple? e = some operand) :
    ctx.value? value m e = ctx.word? value m.sp m.memory e := by
  cases e with
  | literal | name | index => rw [Context.value?]
  | _ => cases h

theorem resultRegister_a (e : Expr) : resultRegister e .a = .a := by
  unfold resultRegister
  split <;> rfl

/- The left operand is computed in the register of the whole. -/
theorem resultRegister_left
    (op : Script.Arith)
    (left right : Expr)
    (r : Register) :
    resultRegister left (resultRegister (.arith op left right) r) =
      resultRegister (.arith op left right) r := by
  unfold resultRegister
  rw [needsAccumulator]
  cases needsAccumulator left <;> simp

def Valued (value : String → UInt16) (ctx : Context) (r : Register) (e : Expr)
    (code : Code) : Prop :=
  ∀ m : Machine, ∃ w last, ctx.value? value m e = some w ∧ Executes value code m last ∧
      (resultRegister e r).read last = w

theorem valued_simple {e : Expr}
    (hSimple : simple? e = some operand)
    (hMade : ctx.operandCode Register.load (resultRegister e r) operand = .ok code) :
    Valued value ctx r e code := by
  intro m
  rcases operandCode_executes m (applies_load value) hSimple hMade with ⟨w, hWord, hLoads⟩
  rcases hLoads w rfl with ⟨last, hLast, hRead⟩
  exact ⟨w, last, (value?_of_simple hSimple).trans hWord, hLast, hRead⟩

/- An operator is applied to what its left side leaves. -/
theorem valued_arith {op : Script.Arith} {left right : Expr}
    {apply : Register → Mnemonic} {first second : Code}
    (hOp : arithOp? op = some apply)
    (hSimple : simple? right = some operand)
    (hFirst : Valued value ctx (resultRegister (.arith op left right) r) left first)
    (hSecond :
      ctx.operandCode apply (resultRegister (.arith op left right) r) operand = .ok second) :
    Valued value ctx r (.arith op left right) (first ++ second) := by
  intro m
  rcases hFirst m with ⟨a, next, hA, hNext, hRead⟩
  rw [resultRegister_left] at hRead
  rcases operandCode_executes next (applies_arith value hOp) hSimple hSecond with
    ⟨b, hB, hApplies⟩
  rw [hNext.sp, hNext.memory, ← value?_of_simple hSimple] at hB
  rw [hRead] at hApplies
  have hResult : ∃ w, op.word? a b = some w := by
    cases op with
    | add | sub => exact ⟨_, rfl⟩
    | _ => cases hOp
  rcases hResult with ⟨w, hW⟩
  rcases hApplies w hW with ⟨last, hLast, hLeft⟩
  refine ⟨w, last, ?_, hNext.append hLast, hLeft⟩
  rw [Context.value?, hA, hB]
  exact hW

theorem freeCases_valued
    (value : String → UInt16)
    (ctx : Context) :
    FreeCases ctx (Valued value ctx) where
  literal := fun h => valued_simple rfl h
  name := fun h => valued_simple rfl h
  element := fun h => valued_simple rfl h
  arith := valued_arith
  int := by
    intro _ _ _ hArg m
    rcases hArg m with ⟨w, last, hValue, hLast, hRead⟩
    rw [resultRegister_a] at hRead
    refine ⟨w, last, ?_, hLast, hRead⟩
    rw [Context.value?]
    exact hValue

end Executions

/-
  The code of an expression leaves its value in the register of
  the result, and changes neither memory, nor the stack pointer,
  nor the output.
-/
theorem exprCode_evaluates {ctx : Context} {r : Register} {e : Expr}
    {code : Code}
    (h : exprCode ctx r e = .ok code)
    (hCalls : callsDefined e = false)
    (value : String → UInt16)
    (m : Machine) :
    ∃ w last, ctx.value? value m e = some w ∧
      Executes value code m last ∧
      (resultRegister e r).read last = w :=
  (freeCases_valued value ctx).expr h hCalls m

/- Two numbers and an array, outside of functions. -/
def numbersAndArray : Context where
  table :=
    { SymbolTable.empty with
      data :=
        [⟨"i", "i", .data, .global⟩, ⟨"n", "n", .data, .global⟩, ⟨"v_", "v_", .data, .global⟩] }
  function := none
  slicing := ["i"]
  functions := []
  arrays := ["v_"]

/- `int(v_[i]) + n - 3` -/
def elementSum : Expr :=
  .arith .sub (.arith .add (.call "int" [.index (.name "v_") (.name "i")]) (.name "n")) (.literal 3)

/- The index register is asked for, and needed for the element. -/
theorem exprCode_evaluates_element :
    ∃ code, exprCode numbersAndArray .x elementSum = .ok code ∧
        code = [.of .ldwx (.symbol "i") .direct, Context.scale, .of .ldwa (.symbol "v_") .indexed,
            .of .adda (.symbol "n") .direct, .of .suba (.number 3) .immediate] ∧
        callsDefined elementSum = false ∧
        ∀ (value : String → UInt16) (m : Machine), ∃ last,
          Executes value code m last ∧
          last.a = m.memory.word (value "v_" + 2 * m.memory.word (value "i"))
            + m.memory.word (value "n") - 3 := by
  have hCalls : callsDefined elementSum = false := rfl
  refine ⟨_, rfl, rfl, hCalls, fun value m => ?_⟩
  rcases @exprCode_evaluates numbersAndArray .x elementSum _ rfl hCalls
    value m with ⟨_, last, hValue, hLast, hRead⟩
  cases hValue
  exact ⟨last, hLast, hRead⟩

end Compile

end Pep9
