import Pep9.Proofs.Machine.Arithmetic
import Pep9.Proofs.Machine.Execution
import Pep9.Proofs.Script.Interpreter

/-
  Instructions of a listing, carried out wherever they stand:
  what each kind of them makes of a state of the machine.

  Key theorems: `step_eq_obey`, `obey_store`, `obey_deci`,
  `obey_branch`, `obey_call`, `obey_ret`.
-/

namespace Pep9

open List
open Assembly (instructionBytes operandValue)
open Isa (Mnemonic Addressing)
open Listing (Instruction Mode)
open Script (wordOf)
open Compile (Code Fitting Register)

namespace Compile.Register

def read (m : Machine) : Register → UInt16
  | a => m.a
  | x => m.x

/- The register that is not the given one. -/
def other : Register → Register
  | a => x
  | x => a

/- The state with a register and the status bits changed. -/
def set (m : Machine) (result : UInt16 × Machine.Flags) : Register → Machine
  | a => m.setA result
  | x => m.setX result

end Compile.Register

namespace Machine

/- An instruction of a listing, as it is fetched from an address. -/
def Fetched.of (value : String → UInt16) (address : UInt16) (i : Instruction) : Fetched where
  address := address
  code := (instructionBytes value i).headD 0
  spec := operandValue value i.operand

/- Carries out an instruction of a listing, wherever it stands. -/
def obey (value : String → UInt16) (m : Machine) (i : Instruction) : Machine × Option Fault :=
  let f := Fetched.of value m.pc i
  (m.advance f).execute f

/- Carries out instructions in their order, up to a fault. -/
def obeyAll (value : String → UInt16) : Code → Machine → Machine × Option Fault
  | [], m => (m, none)
  | i :: rest, m =>
    match m.obey value i with
    | (next, none) => obeyAll value rest next
    | (last, some fault) => (last, some fault)

theorem obeyAll_append {value : String → UInt16} {first second : Code}
    {m next : Machine}
    (h : obeyAll value first m = (next, none)) :
    obeyAll value (first ++ second) m = obeyAll value second next := by
  induction first generalizing m with
  | nil =>
    cases h
    rfl
  | cons _ _ ih =>
    rw [cons_append, obeyAll]
    rw [obeyAll] at h
    split at h
    · next middle hObey => exact ih h
    · cases h

theorem obeyAll_single {value : String → UInt16} {i : Instruction}
    {m last : Machine}
    (h : m.obey value i = (last, none)) :
    obeyAll value [i] m = (last, none) := by
  rw [obeyAll, h]
  rfl

/- The state with the program counter behind an instruction. -/
def passed (value : String → UInt16) (m : Machine) (i : Instruction) : Machine :=
  m.advance (.of value m.pc i)

theorem read_passed
    (value : String → UInt16)
    (m : Machine)
    (i : Instruction)
    (r : Register) :
    r.read (m.passed value i) = r.read m := by
  cases r <;> rfl

section Instructions

variable {value : String → UInt16} {i : Instruction} {m : Machine} {mn : Mnemonic}

/- Nothing but its first byte and its operand makes an instruction. -/
theorem execute_congr {f g : Fetched}
    (hAddress : f.address = g.address)
    (hCode : f.code = g.code)
    (hSpec : g.mnemonic.form ≠ .unary → f.spec = g.spec) :
    (m.advance f).execute f = (m.advance g).execute g := by
  rcases f with ⟨_, code, _⟩
  rcases g with ⟨_, _, _⟩
  cases hAddress
  cases hCode
  by_cases hForm : (Mnemonic.ofOpcode code).form = .unary
  · rw [execute_eq, execute_eq]
    unfold executeUnary advance Fetched.length Fetched.mnemonic
    dsimp only
    rw [hForm]
    rfl
  · cases hSpec hForm
    rfl

variable (value) in
theorem decodes_of
    (address : UInt16)
    (h : Fitting i) :
    Decodes value i (.of value address i) := by
  refine decodes_of_code h ?_ fun _ => rfl
  unfold Fetched.of instructionBytes
  cases h with
  | unary hForm => simp only [hForm, head?_cons, headD_cons]
  | branch hForm | general hForm => simp only [hForm, head?_cons, headD_cons]

theorem step_eq_obey
    (hFitting : Fitting i)
    (hGoes : m.halted = false)
    (hBytes : m.memory.Holds m.pc.toNat (instructionBytes value i)) :
    m.step = m.obey value i := by
  have hPC : m.pc = UInt16.ofNat m.pc.toNat := UInt16.ofNat_toNat.symm
  rcases fetch_bytes hFitting hPC hBytes with ⟨hCode, hSpec⟩
  unfold step obey
  rw [if_neg (by rw [hGoes]; decide)]
  refine execute_congr rfl ?_ fun hForm => hSpec ?_
  · change m.fetch.code = (instructionBytes value i).headD 0
    rw [headD_eq_head?_getD, hCode]
    rfl
  · rw [(decodes_of value m.pc hFitting).length_eq, Fetched.length_eq]
    unfold Isa.Mnemonic.length
    cases hCase : (Fetched.of value m.pc i).mnemonic.form with
    | unary => exact absurd hCase hForm
    | branch | general => decide

variable (value m) in
theorem passed_pc (hFitting : Fitting i) :
    (m.passed value i).pc = m.pc + UInt16.ofNat (instructionBytes value i).length := by
  rw [(decodes_of value m.pc hFitting).length_eq]
  rfl

variable (value m) in
theorem mnemonic_of
    (hFitting : Fitting i)
    (hOp : i.op = .known mn) :
    (Fetched.of value m.pc i).mnemonic = mn :=
  Listing.Operation.known.inj ((decodes_of value m.pc hFitting).op.symm.trans hOp)

variable (value m) in
theorem mode_of {mode : Addressing}
    (hFitting : Fitting i)
    (hOp : i.op = .known mn)
    (hForm : mn.form = .general)
    (hMode : i.mode.addressing? = some mode) :
    (Fetched.of value m.pc i).mode = mode := by
  have hMnemonic := mnemonic_of value m hFitting hOp
  have hField := ((decodes_of value m.pc hFitting).general (hMnemonic ▸ hForm)).1
  exact Option.some.inj (hField.symm.trans hMode)

/- A branch goes to its operand, or on behind it. -/
theorem obey_branch
    (hFitting : Fitting i)
    (hOp : i.op = .known mn)
    (hForm : mn.form = .branch)
    (hCall : mn ≠ .call) :
    m.obey value i =
      ({ m.passed value i with
          pc :=
            if m.flags.takes mn then operandValue value i.operand
            else (m.passed value i).pc },
        none) := by
  have hMnemonic := mnemonic_of value m hFitting hOp
  have hDirect := ((decodes_of value m.pc hFitting).branch (hMnemonic ▸ hForm)).1
  unfold obey
  rw [execute_eq, hMnemonic, hForm]
  dsimp only
  rw [executeBranch_eq _ hMnemonic hForm hCall, target, hDirect]
  change (if m.flags.takes mn = true then _ else _, none) = _
  by_cases hTakes : m.flags.takes mn = true
  · rw [if_pos hTakes, if_pos hTakes]
    rfl
  · rw [if_neg hTakes, if_neg hTakes]
    rfl

/- A call leaves the address behind it on the stack. -/
theorem obey_call
    (hFitting : Fitting i)
    (hOp : i.op = .known .call) :
    m.obey value i =
      ({ (m.passed value i).pushPC with
          pc := operandValue value i.operand }, none) := by
  have hMnemonic := mnemonic_of value m hFitting hOp
  have hDirect := ((decodes_of value m.pc hFitting).branch (hMnemonic ▸ rfl)).1
  unfold obey
  rw [execute_eq, hMnemonic]
  unfold executeBranch target
  simp only [hMnemonic, hDirect]
  rfl

theorem obey_ret
    (hFitting : Fitting i)
    (hOp : i.op = .known .ret) :
    m.obey value i =
      ({ m.passed value i with pc := m.memory.word m.sp, sp := m.sp + 2 },
        none) := by
  have hMnemonic := mnemonic_of value m hFitting hOp
  unfold obey
  rw [execute_eq, hMnemonic]
  unfold executeUnary
  simp only [hMnemonic]
  rfl

variable (value m) in
/- Bytes are taken from the stack, or given back. -/
theorem obey_move {bytes : Int64}
    (hFitting : Fitting i)
    (hOp : i.op = .known mn)
    (hMove : mn = .subsp ∨ mn = .addsp)
    (hOperand : i.operand = .number bytes)
    (hMode : i.mode = .immediate) :
    ∃ flags, m.obey value i =
      ({ m.passed value i with
          sp :=
            if mn = .subsp then m.sp - wordOf bytes
            else m.sp + wordOf bytes
          flags := flags },
        none) := by
  have hMnemonic := mnemonic_of value m hFitting hOp
  have hField : (Fetched.of value m.pc i).mode = .immediate :=
    mode_of value m hFitting hOp (by rcases hMove with rfl | rfl <;> rfl) (by rw [hMode]; rfl)
  have hSpec : (Fetched.of value m.pc i).spec = wordOf bytes := by
    unfold Fetched.of
    rw [hOperand]
    rfl
  unfold obey
  rw [execute_eq, hMnemonic]
  unfold executeGeneral operand
  rcases hMove with rfl | rfl
  · refine ⟨(subtract m.sp (wordOf bytes)).2, ?_⟩
    simp only [hMnemonic, hField, hSpec, ← subtract_fst]
    rfl
  · refine ⟨(add m.sp (wordOf bytes) 0).2, ?_⟩
    simp only [hMnemonic, hField, hSpec, ← add_fst]
    rfl

------------------------------------------------------------
-- Operands
------------------------------------------------------------

variable {r : Register} {operand : Listing.Operand} {suffix : Mode} {mode : Addressing}

/- Only an operand in memory is written to. -/
theorem fitting_write
    (hForm : mn.form = .general)
    (hOperand : operand ≠ .absent)
    (hMode : suffix.addressing? = some mode)
    (hPlace : mode ≠ .immediate) :
    Fitting (.of mn operand suffix) :=
  .general hForm hOperand hMode fun hEq => absurd hEq hPlace

variable (value m r operand) in
theorem obey_store
    (hOperand : operand ≠ .absent)
    (hMode : suffix.addressing? = some mode)
    (hPlace : mode ≠ .immediate) :
    m.obey value (.of r.store operand suffix) =
      ({ m.passed value (.of r.store operand suffix) with
          memory := m.memory.setWord (m.address (operandValue value operand) mode) (r.read m) },
        none) := by
  have hForm := (Compile.quiet_store r).form
  have hFitting := fitting_write hForm hOperand hMode hPlace
  have hMnemonic := mnemonic_of value m hFitting rfl
  have hField := mode_of value m hFitting rfl hForm hMode
  unfold obey
  rw [execute_eq, hMnemonic, hForm]
  unfold executeGeneral
  cases r with
  | a | x =>
    simp only [hMnemonic, store, hField, if_neg hPlace]
    rfl

variable (value m operand) in
/- A number is read, or the input is at fault. -/
theorem obey_deci
    (hOperand : operand ≠ .absent)
    (hMode : suffix.addressing? = some mode)
    (hPlace : mode ≠ .immediate) :
    m.obey value (.of .deci operand suffix) =
      match readNumber m.input with
      | (.error fault, rest) =>
        ({ m.passed value (.of .deci operand suffix) with input := rest },
          some (.ofInput m.pc fault))
      | (.ok n, rest) =>
        ({ m.passed value (.of .deci operand suffix) with
            input := rest
            flags := { m.flags.ofWord (.ofInt n) with v := decide (n < -32768 ∨ n > 32767) }
            memory := m.memory.setWord (m.address (operandValue value operand) mode) (.ofInt n) },
          none) := by
  have hFitting : Fitting (.of .deci operand suffix) := fitting_write rfl hOperand hMode hPlace
  have hMnemonic := mnemonic_of value m hFitting rfl
  have hField := mode_of value m hFitting rfl rfl hMode
  unfold obey
  rw [execute_eq, hMnemonic]
  unfold executeGeneral decimalIn
  simp only [hMnemonic, hField, if_neg hPlace]
  rfl

end Instructions

end Machine

end Pep9
