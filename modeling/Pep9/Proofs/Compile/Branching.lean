import Pep9.Proofs.Compile.Evaluation

/-
  The conditions of loops and conditionals. The code of a
  condition, carried out on any state of the machine and with
  any values of names, branches to its exit where the comparison
  of its operands as signed words is false, and goes on behind
  its end where it is true.

  Key theorems: `compare_executes`, `takes_exitBranch`,
  `conditionCode_branches`.
-/

namespace Pep9

open List
open Assembly (codeBytes operandValue)
open Isa (Mnemonic Addressing)
open Listing (Mode)
open Machine (obeyAll obey signed signed_eq Flags)
open Script (Expr)

namespace Compile

/-
  Some code ends with a branch to an address. It leads to that
  address where the branch is taken and behind its own end where
  it is not, and only registers and status bits are changed.
-/
structure Decides (value : String → UInt16) (code : Code) (branch : Mnemonic)
    (exit : UInt16) (taken : Bool) (m last : Machine) : Prop where
  performs : Performs value code m last
  takes : last.flags.takes branch = taken
  pc : last.pc = if taken then exit
      else m.pc + UInt16.ofNat (codeBytes value code).length
  sp : last.sp = m.sp
  memory : last.memory = m.memory
  output : last.output = m.output
  input : last.input = m.input
  halted : last.halted = m.halted

section Conditions

variable {value : String → UInt16} {ctx : Context} {code : Code} {m next last : Machine}

/- A label changes nothing of what an instruction does. -/
theorem obeyAll_labelFirst
    (label : String)
    (code : Code)
    (m : Machine) :
    obeyAll value (labelFirst label code) m = obeyAll value code m := by
  cases code with
  | nil | cons => rfl

theorem codeBytes_labelFirst
    (label : String)
    (code : Code) :
    codeBytes value (labelFirst label code) = codeBytes value code := by
  cases code with
  | nil | cons => rfl

theorem length_labelFirst
    (label : String)
    (code : Code) :
    (labelFirst label code).length = code.length := by
  cases code with
  | nil | cons => rfl

theorem Executes.labelFirst
    (label : String)
    (h : Executes value code m last) :
    Executes value (labelFirst label code) m last where
  obeys := (obeyAll_labelFirst label code m).trans h.obeys
  pc := by
    rw [codeBytes_labelFirst]
    exact h.pc
  sp := h.sp
  memory := h.memory
  output := h.output
  input := h.input
  halted := h.halted
  steps := by
    rw [codeBytes_labelFirst, length_labelFirst]
    exact h.steps

variable (value m) in
theorem compare_executes
    (r : Register)
    {field : Listing.Operand} {suffix : Mode} {mode : Addressing}
    (hField : field ≠ .absent)
    (hMode : suffix.addressing? = some mode) :
    ∃ last, Executes value [.of r.compare field suffix] m last ∧ last.flags =
          Machine.compare (r.read m) (m.operand (operandValue value field) mode) := by
  have hRead := isRead_compare r
  have hFitting := hRead.fitting hField hMode
  have hMnemonic := Machine.mnemonic_of value m hFitting rfl
  have hModes := Machine.mode_of value m hFitting rfl hRead.form hMode
  have hObey : m.obey value (.of r.compare field suffix) =
        ({ m.passed value (.of r.compare field suffix) with
            flags :=
              Machine.compare (r.read m) (m.operand (operandValue value field) mode) },
          none) := by
    unfold obey
    rw [Machine.execute_eq, hMnemonic, hRead.form]
    unfold Machine.executeGeneral
    cases r with
    | a | x =>
      simp only [hMnemonic, hModes]
      rfl
  exact ⟨_, executes_of_obey hFitting hObey rfl rfl rfl rfl rfl rfl, rfl⟩

/- A branch out of a condition is taken where it is false. -/
theorem takes_exitBranch
    (op : Script.Comparison)
    (a b : UInt16) :
    (Machine.compare a b).takes (exitBranch op) = !op.holds a b := by
  have hSigned : a = b ↔ signed a = signed b := by
    rw [← UInt16.toNat_inj, signed_eq, signed_eq]
    have hA := a.toNat_lt
    have hB := b.toNat_lt
    split <;> split <;> omega
  have hN := Machine.compare_n a b
  have hZ : (Machine.compare a b).z =
      decide (signed a = signed b) :=
    (Machine.compare_z a b).trans (decide_eq_decide.mpr hSigned)
  unfold Script.Comparison.holds
  cases op with
  | less => simp only [exitBranch, Flags.takes, hN]
  | lessEquals =>
    simp only [exitBranch, Flags.takes, hN, hZ, ← Bool.not_or, ← Bool.decide_or]
    rw [decide_eq_decide.mpr Int.le_iff_lt_or_eq]
  | greater =>
    simp only [exitBranch, Flags.takes, hN, hZ, ← Bool.decide_or, ← decide_not]
    rw [decide_eq_decide, Int.not_lt]
    exact Int.le_iff_lt_or_eq.symm
  | greaterEquals => simp only [exitBranch, Flags.takes, hN, ← decide_not, Int.not_le]
  | equals => simp only [exitBranch, Flags.takes, hZ]
  | notEquals =>
    simp only [exitBranch, Flags.takes, hZ, ne_eq, decide_not, Bool.not_not]

/- What is decided by a branch behind some code. -/
theorem Executes.decides {branch : Mnemonic}
    (exit : String)
    (h : Executes value code m next)
    (hForm : branch.form = .branch)
    (hCall : branch ≠ .call) :
    ∃ last, Decides value (code ++ [.jump branch exit]) branch (value exit)
        (next.flags.takes branch) m last := by
  have hFitting : Fitting (.jump branch exit) := .branch hForm nofun
  refine ⟨_, h.performs hFitting (Machine.obey_branch hFitting rfl hForm hCall), rfl, ?_,
    h.sp, h.memory, h.output, h.input, h.halted⟩
  by_cases hTakes : next.flags.takes branch = true
  · rw [if_pos hTakes, if_pos hTakes]
    rfl
  · rw [if_neg hTakes, if_neg hTakes, Machine.passed_pc value next hFitting, h.pc]
    unfold codeBytes
    rw [flatMap_append, length_append, flatMap_singleton,
      UInt16.ofNat_add, UInt16.add_assoc]

variable {label exit : String} {test : Expr}
  (parts : ConditionParts ctx label exit test code)
include parts

/-
  Both operands are read in the state before, and compared in
  the register of the left one.
-/
theorem ConditionParts.executes
    (value : String → UInt16)
    (m : Machine) :
    ∃ a b last, ctx.value? value m parts.left = some a ∧ ctx.value? value m parts.right = some b ∧
        Executes value (labelFirst label parts.first ++ parts.second) m last ∧
        last.flags = Machine.compare a b := by
  rcases operandCode_executes m (applies_load value) parts.left_simple parts.first_eq with
    ⟨a, hA, hLoads⟩
  rcases hLoads a rfl with ⟨loaded, hLoaded, hRead⟩
  rcases operandCode_reads value loaded parts.right_simple parts.second_eq with
    ⟨_, next, field, suffix, mode, hSecond, hField, hMode, hNext, hKept, hB⟩
  rcases compare_executes value next (ctx.comparisonRegister parts.leftOperand) hField hMode with
    ⟨last, hLast, hFlags⟩
  rw [hLoaded.sp, hLoaded.memory] at hB
  rw [hKept, hRead] at hFlags
  refine ⟨a, _, last, (value?_of_simple parts.left_simple).trans hA,
    (value?_of_simple parts.right_simple).trans hB, ?_, hFlags⟩
  rw [hSecond]
  exact (hLoaded.labelFirst label).append (hNext.append hLast)

/- The branch is taken where the comparison is false. -/
theorem ConditionParts.decides
    (value : String → UInt16)
    (m : Machine) :
    ∃ a b last, ctx.value? value m parts.left = some a ∧ ctx.value? value m parts.right = some b ∧
        Decides value code (exitBranch parts.op) (value exit) (!parts.op.holds a b) m last := by
  rcases parts.executes value m with ⟨a, b, _, hA, hB, hNext, hFlags⟩
  rcases exitBranch_form parts.op with ⟨hForm, hCall⟩
  rcases hNext.decides exit hForm hCall with ⟨last, hLast⟩
  rw [hFlags, takes_exitBranch, ← parts.code_eq] at hLast
  exact ⟨a, b, last, hA, hB, hLast⟩

end Conditions

/-
  The code of a condition branches to its exit where the
  comparison of its operands as signed words is false, and only
  there. It changes neither memory, nor the stack pointer, nor
  the output, and its first instruction has the label.
-/
theorem conditionCode_branches {ctx : Context} {label exit : String}
    {test : Expr} {code : Code}
    (h : ctx.conditionCode label exit test = .ok code) :
    ∃ left op right,
      test = .compare left (.last op right) ∧
      (∃ i rest, code = i :: rest ∧ i.label = label ∧
        ∀ j ∈ rest, j.label = "") ∧
      (∃ rest, code = rest ++ [.jump (exitBranch op) exit]) ∧
      ∀ (value : String → UInt16) (m : Machine),
        ∃ a b last, ctx.value? value m left = some a ∧
          ctx.value? value m right = some b ∧
          Decides value code (exitBranch op) (value exit)
            (!op.holds a b) m last := by
  rcases conditionCode_parts h with ⟨parts⟩
  exact ⟨parts.left, parts.op, parts.right, parts.test_eq, parts.labelled,
    ⟨_, parts.code_eq⟩, parts.decides⟩

/- `n < v_[i]` -/
def belowElement : Expr :=
  .compare (.name "n") (.last .less (.index (.name "v_") (.name "i")))

/-
  A number against an element: the index register is needed for
  the element while the accumulator has the number. The branch
  is taken unless the number is less, and so also where the
  difference overflows.
-/
theorem conditionCode_branches_element :
    ∃ code,
      numbersAndArray.conditionCode "wh_0" "ew_0" belowElement = .ok code ∧
      code =
          [(Listing.Instruction.of .ldwa (.symbol "n") .direct).labelled "wh_0",
            .of .ldwx (.symbol "i") .direct, Context.scale, .of .cpwa (.symbol "v_") .indexed,
            .jump .brge "ew_0"] ∧
      ∀ (value : String → UInt16) (m : Machine), ∃ last,
        Decides value code .brge (value "ew_0")
          (!decide (signed (m.memory.word (value "n")) < signed
            (m.memory.word (value "v_" + 2 * m.memory.word (value "i")))))
          m last := by
  refine ⟨_, rfl, rfl, fun value m => ?_⟩
  rcases @conditionCode_branches numbersAndArray "wh_0" "ew_0"
    belowElement _ rfl with ⟨_, _, _, hTest, _, _, hBranches⟩
  cases hTest
  rcases hBranches value m with ⟨_, _, last, hA, hB, hLast⟩
  cases hA
  cases hB
  exact ⟨last, hLast⟩

end Compile

end Pep9
