import Pep9.Proofs.Isa.Encoding
import Pep9.Proofs.Machine.Memory

/-
  What a step of the machine leaves alone. An instruction that
  faults is only passed over, and one that is executed writes
  one word of memory at most.

  Key theorems: `execute_executed`, `execute_faulted`,
  `step_goes`, `step_contained`.
-/

namespace Pep9

open List

namespace Isa.Mnemonic

/-
  The bytes that an instruction may start with in object code:
  its operation code with any addressing field.
-/
def codes (mnemonic : Mnemonic) : List UInt8 :=
  match mnemonic.form with
  | .unary => [mnemonic.opcode]
  | .branch => [mnemonic.opcode, mnemonic.opcode ||| 1]
  | .general => Addressing.all.map fun mode => mnemonic.opcode ||| mode.field

/- Every byte belongs to the instruction as which it is read. -/
theorem mem_codes_iff {mnemonic : Mnemonic} {code : UInt8} :
    code ∈ mnemonic.codes ↔ ofOpcode code = mnemonic := by
  constructor
  · intro hCode
    unfold codes at hCode
    split at hCode
    · next hForm =>
      rw [mem_singleton.mp hCode]
      exact ofOpcode_unary hForm
    · next hForm =>
      have hIndexed : ∀ k ∈ all, k.form = .branch → ofOpcode (k.opcode ||| 1) = k := by
        decide +kernel
      rw [mem_cons, mem_singleton] at hCode
      rcases hCode with rfl | rfl
      · exact (ofOpcode_branch hForm).1
      · exact hIndexed mnemonic mnemonic.mem_all hForm
    · next hForm =>
      rcases mem_map.mp hCode with ⟨mode, _, rfl⟩
      exact (ofOpcode_general mode hForm).1
  · rintro rfl
    have hAll : ∀ n : Fin 256, UInt8.ofFin n ∈ (ofOpcode (UInt8.ofFin n)).codes := by decide +kernel
    exact hAll code.toFin

end Isa.Mnemonic

namespace Machine

open Isa (Mnemonic)

variable {m next : Machine} {f : Fetched} {fault : Fault}

theorem Fetched.length_eq (f : Fetched) : f.length = f.mnemonic.length := by
  unfold Fetched.length Fetched.mnemonic Isa.Mnemonic.length
  rw [← Mnemonic.form_ofOpcode]
  cases (Mnemonic.ofOpcode f.code).form with
  | unary | branch | general => rfl

/- An instruction is executed as its form tells. -/
theorem execute_eq
    (m : Machine)
    (f : Fetched) :
    m.execute f =
      match f.mnemonic.form with
      | .unary => m.executeUnary f
      | .branch => m.executeBranch f
      | .general => m.executeGeneral f := by
  unfold execute Fetched.mnemonic
  cases hForm : Mnemonic.formOf f.code with
  | unary | branch | general => simp only [Mnemonic.form_ofOpcode, hForm]

/- The machine has all branches, and all but one just jump. -/
theorem executeBranch_eq {mn : Mnemonic}
    (m : Machine)
    (hMnemonic : f.mnemonic = mn)
    (hForm : mn.form = .branch)
    (hCall : mn ≠ .call) :
    m.executeBranch f =
      (if m.flags.takes mn then { m with pc := m.target f } else m, none) := by
  unfold executeBranch
  rw [hMnemonic]
  cases mn with
  | call => exact absurd rfl hCall
  | _ => first | rfl | cases hForm

/- The instructions that write to memory. -/
def writers : List Mnemonic :=
  [.stwa, .stwx, .deci, .call]

/- All that an instruction can do. -/
inductive Executed (m : Machine) (f : Fetched) : Machine × Option Fault → Prop where
  | illegal : Executed m f (m, some f.illegal)
  | halted (h : f.mnemonic = .stop) : Executed m f ({ m with halted := true }, none)
  | returned (h : f.mnemonic = .ret) :
      Executed m f ({ m with pc := m.memory.word m.sp, sp := m.sp + 2 }, none)
  | called (h : f.mnemonic = .call) : Executed m f ({ m.pushPC with pc := m.target f }, none)
  | branched (pc : UInt16) (h : f.mnemonic.form = .branch) :
      Executed m f ({ m with pc := pc }, none)
  | computed (a x : UInt16) (flags : Flags) :
      Executed m f ({ m with a := a, x := x, flags := flags }, none)
  | moved (sp : UInt16) (flags : Flags) (h : f.mnemonic = .subsp ∨ f.mnemonic = .addsp) :
      Executed m f ({ m with sp := sp, flags := flags }, none)
  | printed (text : String) : Executed m f (m.print text, none)
  | stored (goal w : UInt16) (h : f.mnemonic ∈ writers) :
      Executed m f ({ m with memory := m.memory.setWord goal w }, none)
  | refused (fault : InputFault) (rest : List Char) (h : f.mnemonic = .deci) :
      Executed m f ({ m with input := rest }, some (.ofInput f.address fault))
  | read (rest : List Char) (flags : Flags) (goal w : UInt16) (h : f.mnemonic = .deci) :
      Executed m f
        ({ m with input := rest, flags := flags, memory := m.memory.setWord goal w }, none)

theorem executeUnary_executed
    (m : Machine)
    (f : Fetched) :
    Executed m f (m.executeUnary f) := by
  unfold executeUnary
  split <;> rename_i h <;> first
    | exact .halted h
    | exact .returned h
    | exact .illegal
    | exact .computed _ _ _

theorem executeBranch_executed
    (m : Machine)
    (f : Fetched) :
    Executed m f (m.executeBranch f) := by
  unfold executeBranch
  dsimp only
  split <;> rename_i h
  · exact .called h
  all_goals first
    | exact .illegal
    | (split <;> exact .branched _ (by rw [h]; rfl))

theorem decimalIn_executed
    (m : Machine)
    {f : Fetched}
    (h : f.mnemonic = .deci) :
    Executed m f (m.decimalIn f) := by
  unfold decimalIn
  split
  · exact .refused _ _ h
  · exact .read _ _ _ _ h

theorem store_executed
    (m : Machine)
    {f : Fetched}
    (w : UInt16)
    (h : f.mnemonic ∈ writers) :
    Executed m f (m.store f w) := by
  unfold store
  split
  · exact .illegal
  · exact .stored _ _ h

theorem executeGeneral_executed
    (m : Machine)
    (f : Fetched) :
    Executed m f (m.executeGeneral f) := by
  unfold executeGeneral
  dsimp only
  split <;> rename_i h <;> first
    | exact .illegal
    | exact .moved _ _ (.inr h)
    | exact .moved _ _ (.inl h)
    | exact store_executed m _ (by rw [h]; decide)
    | exact .printed _
    | exact .computed _ _ _
    | (split
       · exact .illegal
       · exact decimalIn_executed m h)

theorem execute_executed
    (m : Machine)
    (f : Fetched) :
    Executed m f (m.execute f) := by
  unfold execute
  split
  · exact executeUnary_executed m f
  · exact executeBranch_executed m f
  · exact executeGeneral_executed m f

/- An instruction that cannot be executed only takes input. -/
theorem execute_faulted (h : m.execute f = (next, some fault)) :
    next = { m with input := next.input } ∧ ∀ steps, fault ≠ .stepLimit steps := by
  have hExecuted := execute_executed m f
  rw [h] at hExecuted
  cases hExecuted with
  | illegal => exact ⟨rfl, nofun⟩
  | refused problem =>
    refine ⟨rfl, fun steps => ?_⟩
    cases problem <;> nofun

section Results

variable {result : Machine × Option Fault}

theorem Executed.steps (h : Executed m f result) :
    result.1.steps = m.steps := by
  cases h <;> rfl

/-
  Memory after an instruction has been executed: only the
  writing instructions change it, and these write one word.
-/
theorem Executed.memory (h : Executed m f result) :
    result.1.memory = m.memory ∨
      f.mnemonic ∈ writers ∧ ∃ goal w, result.1.memory = m.memory.setWord goal w := by
  cases h with
  | called hWriter | read _ _ _ _ hWriter =>
    rw [hWriter]
    exact .inr ⟨by decide, _, _, rfl⟩
  | stored _ _ hWriter => exact .inr ⟨hWriter, _, _, rfl⟩
  | _ => exact .inl rfl

end Results

------------------------------------------------------------
-- Steps
------------------------------------------------------------

/- A machine that has not halted executes what it fetches. -/
theorem step_goes (h : m.halted = false) :
    m.step = (m.advance m.fetch).execute m.fetch := by
  unfold step
  rw [if_neg (by simp [h])]

theorem step_halted (h : m.halted = true) : m.step = (m, none) := by
  unfold step
  rw [if_pos h]

theorem step_reads
    (h : m.halted = false)
    (hMnemonic : m.fetch.mnemonic = .deci)
    (hMode : m.fetch.mode ≠ .immediate) :
    m.step = (m.advance m.fetch).decimalIn m.fetch := by
  rw [step_goes h, execute_eq, hMnemonic]
  unfold executeGeneral
  simp only [hMnemonic]
  exact if_neg hMode

/- A step counts as one, whether or not it faults. -/
theorem step_steps (h : m.halted = false) : m.step.1.steps = m.steps + 1 := by
  rw [step_goes h, (execute_executed _ _).steps]
  rfl

/-
  An instruction was passed over: registers, status bits and
  memory are as they were, nothing was printed, and the program
  counter stands behind as many bytes as the assembler sets
  aside for such an instruction. Some input may be gone.
-/
structure PassedOver (m next : Machine) : Prop where
  unchanged : next = { m with pc := next.pc, steps := m.steps + 1, input := next.input }
  behind : ∃ mnemonic : Mnemonic, m.memory.byte m.pc ∈ mnemonic.codes ∧
      ∃ bytes, next.pc = m.pc + UInt16.ofNat bytes ∧ ∀ (plan : Assembly.Plan) label operands,
          plan.takeStatement label (.instruction mnemonic operands) = plan.take bytes

/-
  At most the two bytes of one word of memory were changed, and
  these only by an instruction that writes.
-/
structure WritesWord (m next : Machine) : Prop where
  word : ∃ goal, ∀ address, next.memory.byte address ≠ m.memory.byte address →
      address = goal ∨ address = goal + 1
  writer : next.memory ≠ m.memory → ∃ mnemonic ∈ writers, m.memory.byte m.pc ∈ mnemonic.codes

theorem step_passedOver (h : m.step = (next, some fault)) :
    PassedOver m next ∧ ∀ steps, fault ≠ .stepLimit steps := by
  cases hHalted : m.halted with
  | true =>
    rw [step_halted hHalted] at h
    cases h
  | false =>
    rw [step_goes hHalted] at h
    rcases execute_faulted h with ⟨hSame, hFault⟩
    refine ⟨⟨?_, m.fetch.mnemonic, Mnemonic.mem_codes_iff.mpr rfl,
      m.fetch.mnemonic.length, ?_, fun _ _ _ => rfl⟩, hFault⟩
    · rw [hSame]
      rfl
    · rw [hSame, ← Fetched.length_eq]
      rfl

theorem step_writesWord (m : Machine) : WritesWord m m.step.1 := by
  cases hHalted : m.halted with
  | true =>
    rw [step_halted hHalted]
    exact ⟨⟨0, fun _ hChanged => absurd rfl hChanged⟩, absurd rfl⟩
  | false =>
    rw [step_goes hHalted]
    rcases (execute_executed (m.advance m.fetch) m.fetch).memory with
      hSame | ⟨hWriter, goal, _, hWritten⟩
    · have hKept : ((m.advance m.fetch).execute m.fetch).1.memory = m.memory := hSame
      refine ⟨⟨0, fun address hChanged => ?_⟩, absurd hKept⟩
      exact absurd (congrArg (Memory.byte · address) hKept) hChanged
    · refine ⟨⟨goal, fun address hChanged => ?_⟩, fun _ =>
        ⟨m.fetch.mnemonic, hWriter, Mnemonic.mem_codes_iff.mpr rfl⟩⟩
      rw [hWritten, Memory.byte_setWord] at hChanged
      split at hChanged
      · next hSecond => exact .inr hSecond
      · split at hChanged
        · next hFirst => exact .inl hFirst
        · exact absurd rfl hChanged

/-
  What a step changes. If it faults, the instruction is only
  passed over. If it does not, at most one word of memory is
  written, and only by four instructions.
-/
theorem step_contained (m : Machine) :
    (∀ next fault, m.step = (next, some fault) → PassedOver m next) ∧
      ∀ next, m.step = (next, none) → WritesWord m next := by
  refine ⟨fun next fault h => (step_passedOver h).1, fun next h => ?_⟩
  have hWrites := step_writesWord m
  rw [h] at hWrites
  exact hWrites

/- A reading instruction in the last byte, its operand at the start. -/
def atLastByte (input : String) : Machine :=
  { initial input with
    pc := 0xFFFF
    memory := Memory.zeros.setByte 0xFFFF 0x31 }

theorem step_contained_lastByte :
    (∃ next,
      (atLastByte "+x7").step = (next, some (.badInput 0xFFFF .noNumeral)) ∧
        PassedOver (atLastByte "+x7") next) ∧
      ∃ next, (atLastByte "-7").step = (next, none) ∧
        WritesWord (atLastByte "-7") next := by
  have hStep : ∀ input, (atLastByte input).step =
        ((atLastByte input).advance (atLastByte input).fetch).decimalIn
          (atLastByte input).fetch := by
    intro input
    have hCode : (atLastByte input).fetch.code = 0x31 := by
      simp [fetch, atLastByte]
    refine step_reads rfl (Mnemonic.mem_codes_iff.mp (by rw [hCode]; decide)) ?_
    unfold Fetched.mode
    rw [hCode]
    decide
  have hRefused : readNumber "+x7".toList = (.error .noNumeral, ['x', '7']) := rfl
  have hRead : readNumber "-7".toList = (.ok (-7), []) := rfl
  unfold decimalIn at hStep
  constructor
  · have hFaults := hStep "+x7"
    dsimp only [advance, atLastByte, initial] at hFaults
    rw [hRefused] at hFaults
    exact ⟨_, hFaults, (step_contained _).1 _ _ hFaults⟩
  · have hGoes := hStep "-7"
    dsimp only [advance, atLastByte, initial] at hGoes
    rw [hRead] at hGoes
    exact ⟨_, hGoes, (step_contained _).2 _ hGoes⟩

end Machine

end Pep9
