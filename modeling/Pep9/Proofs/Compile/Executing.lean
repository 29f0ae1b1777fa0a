import Pep9.Proofs.Machine.Obeying
import Pep9.Proofs.Machine.Words

/-
  The machine between two instructions of a program, whatever
  its registers and the rest of its memory hold, and what each
  kind of instruction does to them.

  Key theorems: `Executing.step_eq`, `Executing.store`,
  `Executing.adjust`, `Executing.call`, `Executing.ret`.
-/

namespace Pep9

open List
open Assembly (codeStart codeBytes operandValue)
open Isa (Mnemonic)
open Listing (Instruction Program)
open Machine (Steps Clear)
open Script (wordOf)

variable {goal : Code} {limit : Nat}

/- What an operator makes of two words; the result wraps around. -/
def Script.Arith.word? (op : Script.Arith) (left right : UInt16) : Option UInt16 :=
  match op with
  | .add => some (left + right)
  | .sub => some (left - right)
  | _ => none

/- Only the place of an address in memory counts. -/
theorem Machine.Memory.Holds.wrap {memory : Memory} {address other : Nat}
    {bytes : List UInt8}
    (h : memory.Holds address bytes)
    (hSame : UInt16.ofNat address = UInt16.ofNat other) :
    memory.Holds other bytes := by
  induction bytes generalizing address other with
  | nil => trivial
  | cons _ _ ih =>
    refine ⟨hSame ▸ h.1, ih h.2 ?_⟩
    rw [UInt16.ofNat_add, UInt16.ofNat_add, hSame]

namespace Compile

/- The address behind some code of a program. -/
def addressOf (p : Program) (value : String → UInt16) (before : Code) : UInt16 :=
  UInt16.ofNat (codeStart p + (codeBytes value before).length)

theorem addressOf_append
    (p : Program)
    (value : String → UInt16)
    (before code : Code) :
    addressOf p value (before ++ code) =
      addressOf p value before + UInt16.ofNat (codeBytes value code).length := by
  unfold addressOf codeBytes
  rw [flatMap_append, length_append, ← Nat.add_assoc, UInt16.ofNat_add (_ + _)]

/-
  The machine is about to execute what follows on some code of
  a program, all of whose instructions are in memory.
-/
structure Executing (p : Program) (value : String → UInt16) (before : Code)
    (m : Machine) : Prop where
  goes : m.halted = false
  pc : m.pc = addressOf p value before
  code : m.memory.Holds (codeStart p) (codeBytes value p.code)

/- Some steps lead to a place, and there something holds. -/
def Reaches (p : Program) (value : String → UInt16) (m : Machine) (place : Code)
    (post : Machine → Prop) : Prop :=
  ∃ n last, Steps n m last ∧ Executing p value place last ∧ post last

section Program

variable {p : Program} {value : String → UInt16} {before behind place further code : Code}
  {i : Instruction} {m : Machine} {post post' : Machine → Prop}

namespace Reaches

theorem here
    (h : Executing p value place m)
    (hPost : post m) :
    Reaches p value m place post :=
  ⟨0, m, .refl m, h, hPost⟩

/- Steps before do not change where a machine gets to. -/
theorem after {n : Nat} {next : Machine}
    (hSteps : Steps n m next)
    (h : Reaches p value next place post) :
    Reaches p value m place post := by
  rcases h with ⟨k, last, hRest, hLast⟩
  exact ⟨n + k, last, hSteps.trans hRest, hLast⟩

variable (h : Reaches p value m place post)
include h

theorem bind
    (hNext :
      ∀ last, Executing p value place last → post last → Reaches p value last further post') :
    Reaches p value m further post' := by
  rcases h with ⟨_, next, hSteps, hPlace, hPost⟩
  exact after hSteps (hNext next hPlace hPost)

theorem mono (hImp : ∀ last, post last → post' last) :
    Reaches p value m place post' := by
  rcases h with ⟨n, last, hSteps, hPlace, hPost⟩
  exact ⟨n, last, hSteps, hPlace, hImp last hPost⟩

end Reaches

namespace Executing

/- The bytes of code are where it stands. -/
theorem holds
    (h : Executing p value before m)
    (hCode : p.code = before ++ code ++ behind) :
    m.memory.Holds m.pc.toNat (codeBytes value code) := by
  have hHolds := h.code
  rw [hCode] at hHolds
  unfold codeBytes at hHolds
  rw [flatMap_append, flatMap_append,
    Machine.Memory.holds_append, Machine.Memory.holds_append] at hHolds
  refine hHolds.1.2.wrap ?_
  rw [UInt16.ofNat_toNat, h.pc]
  rfl

variable (h : Executing p value before m) (hFitting : ∀ i ∈ p.code, Fitting i)
  (hCode : p.code = before ++ i :: behind)

include h hFitting hCode

theorem step_eq : m.step = m.obey value i := by
  have hBytes := h.holds (hCode.trans (append_cons ..))
  unfold codeBytes at hBytes
  rw [flatMap_singleton] at hBytes
  refine Machine.step_eq_obey (hFitting i ?_) h.goes hBytes
  rw [hCode]
  exact mem_append_right _ mem_cons_self

/- What a step does, from what its instruction does. -/
theorem step {last : Machine}
    (hObey : m.obey value i = (last, none)) :
    Steps 1 m last :=
  .single h.goes ((h.step_eq hFitting hCode).trans hObey)

theorem passed : Executing p value (before ++ [i]) (m.passed value i) where
  goes := h.goes
  pc := by
    have hI : i ∈ p.code := hCode ▸ mem_append_right _ mem_cons_self
    rw [Machine.passed_pc value m (hFitting i hI), h.pc, addressOf_append]
    unfold codeBytes
    rw [flatMap_singleton]
  code := h.code

end Executing

namespace Executing

variable (h : Executing p value before m) (hFitting : ∀ i ∈ p.code, Fitting i)

include h hFitting

theorem store {r : Register} {operand : Listing.Operand}
    (hCode : p.code = before ++ .of r.store operand .stackRelative :: behind)
    (hOperand : operand ≠ .absent)
    (hLimit : codeStart p + (codeBytes value p.code).length ≤ limit)
    (hClear : Clear limit (m.sp + operandValue value operand) 2) :
    Reaches p value m (before ++ [.of r.store operand .stackRelative])
      (· =
        { m.passed value (.of r.store operand .stackRelative) with
          memory := m.memory.setWord (m.sp + operandValue value operand) (r.read m) }) := by
  have hNext := h.passed hFitting hCode
  exact ⟨1, _, h.step hFitting hCode (Machine.obey_store value m r operand hOperand rfl nofun),
    ⟨hNext.goes, hNext.pc, hNext.code.setWord hLimit hClear⟩, rfl⟩

/- The stack pointer is moved where there are bytes to move. -/
theorem adjust {mn : Mnemonic} {bytes : Int64} {sp : UInt16}
    (hCode : p.code = before ++ adjustStack mn bytes ++ behind)
    (hBytes : 0 ≤ bytes)
    (hMove :
      mn = .subsp ∧ sp = m.sp - wordOf bytes ∨ mn = .addsp ∧ sp = m.sp + wordOf bytes) :
    Reaches p value m (before ++ adjustStack mn bytes) fun last =>
      last.a = m.a ∧ last.sp = sp ∧ last.memory = m.memory := by
  unfold adjustStack at hCode ⊢
  by_cases hPositive : bytes > 0
  · rw [if_pos hPositive] at hCode ⊢
    rw [append_assoc] at hCode
    have hNext := h.passed hFitting hCode
    have hMoves : Fitting (.of mn (.number bytes) .immediate) :=
      hFitting _ (hCode ▸ mem_append_right _ mem_cons_self)
    rcases Machine.obey_move value m hMoves rfl (hMove.imp And.left And.left) rfl rfl with
      ⟨_, hObey⟩
    refine ⟨1, _, h.step hFitting hCode hObey, ⟨hNext.goes, hNext.pc, hNext.code⟩, rfl, ?_, rfl⟩
    rcases hMove with ⟨rfl, rfl⟩ | ⟨rfl, rfl⟩
    · rfl
    · rfl
  · have hZero : bytes = 0 := Int64.le_antisymm (Int64.not_lt.mp hPositive) hBytes
    have hStays : m.sp = sp := by
      rw [hZero] at hMove
      rcases hMove with ⟨_, hSP⟩ | ⟨_, hSP⟩
      · exact (hSP.trans (UInt16.sub_zero m.sp)).symm
      · exact (hSP.trans (UInt16.add_zero m.sp)).symm
    rw [if_neg hPositive, append_nil]
    exact .here h ⟨rfl, hStays, rfl⟩

/-
  A call goes to its label, with the address behind it on the
  stack.
-/
theorem call {label : String}
    (hCode : p.code = before ++ .jump .call label :: behind)
    (hGoal : value label = addressOf p value goal)
    (hLimit : codeStart p + (codeBytes value p.code).length ≤ limit)
    (hClear : Clear limit (m.sp - 2) 2) :
    Reaches p value m goal fun last =>
      last.sp = m.sp - 2 ∧ last.memory =
        m.memory.setWord (m.sp - 2) (addressOf p value (before ++ [.jump .call label])) := by
  have hNext := h.passed hFitting hCode
  refine ⟨1, _, h.step hFitting hCode (Machine.obey_call (.branch rfl nofun) rfl),
    ⟨hNext.goes, hGoal, hNext.code.setWord hLimit hClear⟩, rfl, ?_⟩
  rw [← hNext.pc]
  rfl

theorem ret
    (hCode : p.code = before ++ .plain .ret :: behind)
    (hGoal : m.memory.word m.sp = addressOf p value goal) :
    Reaches p value m goal fun last =>
      last.sp = m.sp + 2 ∧ last.memory = m.memory := by
  have hNext := h.passed hFitting hCode
  exact ⟨1, _, h.step hFitting hCode (Machine.obey_ret (.unary rfl) rfl),
    ⟨hNext.goes, hGoal, hNext.code⟩, rfl, rfl⟩

end Executing

end Program

end Compile

end Pep9
