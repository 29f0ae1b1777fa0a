import Pep9.Proofs.Assembly.Image
import Pep9.Proofs.Machine.Effects

/-
  Runs of the machine, step by step, and what the machine
  fetches where the bytes of an instruction stand.

  Key theorems: `Steps.runSteps`, `runSteps_mono`,
  `fetch_decodes`.
-/

namespace Pep9

open List
open Assembly (instructionBytes operandValue fieldOf bytesOfWord)
open Compile (Fitting)
open Listing (Instruction)

variable {address : Nat}

namespace Machine

variable {m last : Machine} {j k : Nat} {output output' : String}
  {fault : InputFault} {value : String → UInt16} {i : Instruction} {f : Fetched}

/- How a run of at most some number of steps comes out. -/
inductive Outcome where
  | halted
  | faulted (fault : Fault)
  | unfinished
deriving DecidableEq, Repr

/- Runs until the machine halts or faults, or for `n` steps. -/
def runSteps : Nat → Machine → Machine × Outcome
  | 0, m => (m, if m.halted then .halted else .unfinished)
  | n + 1, m =>
      if m.halted then
        (m, .halted)
      else
        match m.step with
        | (next, none) => runSteps n next
        | (next, some fault) => (next, .faulted fault)

/- Some number of steps without a fault. -/
inductive Steps : Nat → Machine → Machine → Prop where
  | refl (m : Machine) : Steps 0 m m
  | step {n : Nat} {m next last : Machine} (hGoes : m.halted = false)
      (hStep : m.step = (next, none)) (hRest : Steps n next last) : Steps (n + 1) m last

theorem Steps.single {next : Machine}
    (hGoes : m.halted = false)
    (hStep : m.step = (next, none)) :
    Steps 1 m next := .step hGoes hStep (.refl next)

theorem Steps.trans {middle : Machine}
    (h : Steps j m middle)
    (h' : Steps k middle last) :
    Steps (j + k) m last := by
  induction h with
  | refl =>
    rw [Nat.zero_add]
    exact h'
  | step hGoes hStep _ ih =>
    rw [Nat.add_right_comm]
    exact .step hGoes hStep (ih h')

/- A run goes on from where some steps lead. -/
theorem Steps.runSteps
    (h : Steps k m last)
    (n : Nat) :
    runSteps (k + n) m = runSteps n last := by
  induction h with
  | refl => rw [Nat.zero_add]
  | step hGoes hStep _ ih =>
    rw [Nat.add_right_comm, Machine.runSteps, if_neg (by simp [hGoes]), hStep]
    exact ih

theorem runSteps_of_halted
    (n : Nat)
    (h : m.halted = true) :
    runSteps n m = (m, .halted) := by
  cases n with
  | zero | succ => rw [runSteps, if_pos h]

/- The machine halts after printing some text. -/
def Halts (m : Machine) (output : String) : Prop :=
  ∃ n last, runSteps n m = (last, .halted) ∧ last.output = output

/- The machine stops at a number that it cannot read. -/
def Fails (m : Machine) (fault : InputFault) (output : String) : Prop :=
  ∃ n last address, runSteps n m = (last, .faulted (.ofInput address fault)) ∧ last.output = output

def RunsForever (m : Machine) : Prop := ∀ n, (runSteps n m).2 = .unfinished

/- The output of a machine goes on that of another one. -/
def Extends (m later : Machine) : Prop :=
  m.output.toList <+: later.output.toList

theorem Executed.extends {result : Machine × Option Fault}
    (h : Executed m f result) :
    Extends m result.1 := by
  cases h with
  | printed =>
    unfold Extends print
    rw [String.toList_append]
    exact prefix_append _ _
  | _ => exact prefix_rfl

theorem step_extends (m : Machine) : Extends m m.step.1 := by
  unfold step
  split
  · exact prefix_rfl
  · exact (execute_executed (m.advance m.fetch) m.fetch).extends

/- What is printed stays printed. -/
theorem runSteps_extends
    (n : Nat)
    (m : Machine) :
    Extends m (runSteps n m).1 := by
  induction n generalizing m with
  | zero => exact prefix_rfl
  | succ _ ih =>
    rw [runSteps]
    have hStep := step_extends m
    split
    · exact prefix_rfl
    · split
      · next next hNext =>
        rw [hNext] at hStep
        exact hStep.trans (ih next)
      · next next fault hNext =>
        rw [hNext] at hStep
        exact hStep

theorem runSteps_mono
    (m : Machine)
    (h : j ≤ k) :
    Extends (runSteps j m).1 (runSteps k m).1 := by
  induction j generalizing m k with
  | zero => exact runSteps_extends k m
  | succ j ih =>
    rcases Nat.exists_eq_succ_of_ne_zero (Nat.ne_of_gt (Nat.lt_of_lt_of_le (Nat.succ_pos j) h)) with
      ⟨_, rfl⟩
    rw [runSteps, runSteps]
    split
    · exact prefix_rfl
    · split
      · next next hNext => exact ih next (Nat.le_of_succ_le_succ h)
      · exact prefix_rfl

/- A run that has come to an end stays as it is. -/
theorem runSteps_of_finished
    (hFinished : (runSteps j m).2 ≠ .unfinished)
    (h : j ≤ k) :
    runSteps k m = runSteps j m := by
  induction j generalizing m k with
  | zero =>
    have hHalted : m.halted = true := by
      by_contra hGoes
      rw [runSteps, if_neg hGoes] at hFinished
      exact hFinished rfl
    rw [runSteps_of_halted 0 hHalted, runSteps_of_halted k hHalted]
  | succ j ih =>
    rcases Nat.exists_eq_succ_of_ne_zero (Nat.ne_of_gt (Nat.lt_of_lt_of_le (Nat.succ_pos j) h)) with
      ⟨_, rfl⟩
    rw [runSteps] at hFinished ⊢
    rw [runSteps]
    by_cases hHalted : m.halted = true
    · rw [if_pos hHalted, if_pos hHalted]
    · rw [if_neg hHalted] at hFinished ⊢
      rw [if_neg hHalted]
      rcases hStep : m.step with ⟨_, _ | _⟩
      · rw [hStep] at hFinished
        exact ih hFinished (Nat.le_of_succ_le_succ h)
      · rfl

/- Two runs that have come to an end are the same. -/
theorem runSteps_unique {end₁ end₂ : Machine × Outcome}
    (h₁ : runSteps j m = end₁)
    (h₂ : runSteps k m = end₂)
    (hJ : end₁.2 ≠ .unfinished)
    (hK : end₂.2 ≠ .unfinished) :
    end₁ = end₂ := by
  subst h₁ h₂
  rcases Nat.le_total j k with h | h
  · exact (runSteps_of_finished hJ h).symm
  · exact runSteps_of_finished hK h

theorem Steps.unfinished
    (h : Steps k m last)
    (hGoes : last.halted = false)
    (hLe : j ≤ k) :
    (Machine.runSteps j m).2 = .unfinished := by
  by_contra hFinished
  have hAll := runSteps_of_finished hFinished hLe
  have hEnd := h.runSteps 0
  rw [Nat.add_zero, Machine.runSteps, hGoes, hAll] at hEnd
  rw [hEnd] at hFinished
  exact hFinished rfl

/- A finished run has the steps at its start behind it. -/
theorem Steps.runSteps_of_finished
    (h : Steps j m last)
    (hFinished : (Machine.runSteps k m).2 ≠ .unfinished) :
    Machine.runSteps k last = Machine.runSteps k m := by
  rw [← h.runSteps k]
  exact Machine.runSteps_of_finished hFinished (Nat.le_add_left k j)

/- What is fetched is an instruction of a listing. -/
structure Decodes (value : String → UInt16) (i : Instruction) (f : Fetched) : Prop where
  op : i.op = .known f.mnemonic
  branch : f.mnemonic.form = .branch → f.isIndexed = false ∧ f.spec = operandValue value i.operand
  general : f.mnemonic.form = .general → i.mode.addressing? = some f.mode ∧
        f.spec = operandValue value i.operand

theorem Decodes.length_eq (h : Decodes value i f) :
    (instructionBytes value i).length = f.length := by
  rw [f.length_eq]
  unfold instructionBytes Isa.Mnemonic.length
  rw [h.op]
  dsimp only
  cases f.mnemonic.form with
  | unary | branch | general => rfl

variable (hFitting : Fitting i)
include hFitting

/- The first byte of an instruction, and its operand, make it. -/
theorem decodes_of_code
    (hCode : (instructionBytes value i).head? = some f.code)
    (hSpec :
      (instructionBytes value i).length ≠ 1 → f.spec = operandValue value i.operand) :
    Decodes value i f := by
  unfold instructionBytes at hCode hSpec
  cases hFitting with
  | @unary _ mn _ hForm =>
    simp only [hForm] at hCode
    have hMnemonic : f.mnemonic = mn := by
      unfold Fetched.mnemonic
      rw [← Option.some.inj hCode]
      exact Isa.Mnemonic.ofOpcode_unary hForm
    rw [← hMnemonic]
    refine ⟨rfl, fun h => ?_, fun h => ?_⟩
    · rw [hMnemonic, hForm] at h
      cases h
    · rw [hMnemonic, hForm] at h
      cases h
  | @branch _ mn _ hForm =>
    simp only [hForm] at hCode hSpec
    rcases Isa.Mnemonic.ofOpcode_branch hForm with ⟨hDecoded, hDirect⟩
    have hByte : f.code = mn.opcode := by
      rw [← Option.some.inj hCode, show fieldOf .none = 0 from rfl, UInt8.or_zero]
    have hMnemonic : f.mnemonic = mn := by
      unfold Fetched.mnemonic
      rw [hByte]
      exact hDecoded
    rw [← hMnemonic]
    refine ⟨rfl, fun _ => ⟨?_, hSpec (by simp [bytesOfWord])⟩, fun h => ?_⟩
    · unfold Fetched.isIndexed
      rw [hByte]
      exact decide_eq_false hDirect
    · rw [hMnemonic, hForm] at h
      cases h
  | @general _ mn _ mode addressing hForm _ hMode =>
    simp only [hForm] at hCode hSpec
    rcases Isa.ofOpcode_general addressing hForm with ⟨hDecoded, hField⟩
    have hByte : f.code = mn.opcode ||| addressing.field := by
      rw [← Option.some.inj hCode, show fieldOf mode = addressing.field by simp [fieldOf, hMode]]
    have hMnemonic : f.mnemonic = mn := by
      unfold Fetched.mnemonic
      rw [hByte]
      exact hDecoded
    rw [← hMnemonic]
    refine ⟨rfl, fun h => ?_, fun _ => ⟨?_, hSpec (by simp [bytesOfWord])⟩⟩
    · rw [hMnemonic, hForm] at h
      cases h
    · rw [hMode]
      unfold Fetched.mode
      rw [hByte, hField]

theorem fetch_bytes
    (hPC : m.pc = UInt16.ofNat address)
    (hBytes : m.memory.Holds address (instructionBytes value i)) :
    (instructionBytes value i).head? = some m.fetch.code ∧ ((instructionBytes value i).length ≠ 1 →
        m.fetch.spec = operandValue value i.operand) := by
  have hNext : m.pc + 1 = UInt16.ofNat (address + 1) := by
    rw [hPC]
    exact (UInt16.ofNat_add address 1).symm
  have hCode : m.fetch.code = m.memory.byte (UInt16.ofNat address) := by
    rw [← hPC]
    rfl
  have hSpec : m.fetch.spec = m.memory.word (UInt16.ofNat (address + 1)) := by
    rw [← hNext]
    rfl
  unfold instructionBytes at hBytes ⊢
  cases hFitting with
  | @unary _ _ _ hForm =>
    simp only [hForm] at hBytes ⊢
    rw [hCode, hBytes.1]
    exact ⟨rfl, absurd rfl⟩
  | @branch _ _ _ hForm | @general _ _ _ _ _ hForm =>
    simp only [hForm] at hBytes ⊢
    rw [hCode, hBytes.1, hSpec]
    exact ⟨rfl, fun _ => hBytes.2.word⟩

/- The bytes of an instruction are fetched as what they are. -/
theorem fetch_decodes
    (hPC : m.pc = UInt16.ofNat address)
    (hBytes : m.memory.Holds address (instructionBytes value i)) :
    Decodes value i m.fetch := by
  rcases fetch_bytes hFitting hPC hBytes with ⟨hCode, hSpec⟩
  exact decodes_of_code hFitting hCode hSpec

end Machine

end Pep9
