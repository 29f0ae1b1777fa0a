import Pep9.Proofs.Compile.Branching

/-
  The machine while it runs a program whose variables are
  words: where it is, what its variables hold, and what code
  does with them.

  Key theorems: `Running.executes`, `Running.decides`,
  `Running.setWord`, `Running.print_scratch`.
-/

namespace Pep9

open List
open Assembly (codeStart codeBytes operandValue)
open Isa (Mnemonic Addressing)
open Listing (Instruction Mode Program)
open Machine (Steps stackTop)
open Script (State Store)

namespace Compile

/-
  A program in memory: the values of its names, and the
  targets of its variables with their modes.
-/
structure World where
  program : Program
  value : String → UInt16
  place : Sites

variable {w : World} {before behind code : Code} {i : Instruction} {s : State} {m : Machine}
  {u : UInt16} {ref : Reference} {x : String}

namespace World

/- A variable is a constant, or has a word before the code. -/
def Located (w : World) (ref : Reference) : Prop :=
  ref.mode = .immediate ∨ ref.mode = .direct ∧ (w.value ref.target).toNat + 2 ≤ codeStart w.program

/-
  A program that fits below the stack, with all its labels
  and with variables that do not overlap.
-/
structure Sound (w : World) : Prop where
  fitting : ∀ i ∈ w.program.code, Fitting i
  label : ∀ before i behind, w.program.code = before ++ i :: behind →
      i.label ≠ "" → w.value i.label = addressOf w.program w.value before
  size : codeStart w.program + (codeBytes w.value w.program.code).length + 2 ≤ stackTop.toNat
  located : ∀ x ref, w.place x = some ref → w.Located ref
  apart : ∀ x y ref ref', w.place x = some ref → w.place y = some ref' →
      ref.mode = .direct → ref'.mode = .direct → x ≠ y →
        (w.value ref.target).toNat + 2 ≤ (w.value ref'.target).toNat ∨
          (w.value ref'.target).toNat + 2 ≤ (w.value ref.target).toNat

namespace Sound

/- A variable in memory has an address of its own. -/
theorem below
    (h : w.Sound)
    (hPlace : w.place x = some ref)
    (hDirect : ref.mode = .direct) :
    (w.value ref.target).toNat + 2 ≤ codeStart w.program ∧ codeStart w.program ≤ 64397 := by
  have hTop : stackTop.toNat = 64399 := rfl
  have hFits := h.size
  rcases h.located x ref hPlace with hConstant | ⟨_, hBelow⟩
  · rw [hDirect] at hConstant
    cases hConstant
  · exact ⟨hBelow, by omega⟩

variable {memory : Machine.Memory} {sp address : UInt16}

/- A variable keeps its value where a word apart from it changes. -/
theorem word?_setWord
    (h : w.Sound)
    (hPlace : w.place x = some ref)
    (hEnd : address.toNat + 2 ≤ Machine.memorySize)
    (hApart : ref.mode = .direct →
      (w.value ref.target).toNat + 2 ≤ address.toNat ∨
        address.toNat + 2 ≤ (w.value ref.target).toNat) :
    ref.word? w.value sp (memory.setWord address u) = ref.word? w.value sp memory := by
  have hSize : Machine.memorySize = 65536 := rfl
  unfold Reference.word?
  rcases h.located x ref hPlace with hConstant | ⟨hDirect, _⟩
  · rw [hConstant]
  · have hBelow := h.below hPlace hDirect
    rw [hDirect]
    refine congrArg some (Machine.Memory.word_setWord_of_apart hEnd (by omega) ?_)
    exact hApart hDirect

/- Code stays where a word outside of it changes. -/
theorem code_setWord
    (h : w.Sound)
    (hCode : memory.Holds (codeStart w.program) (codeBytes w.value w.program.code))
    (hApart : address.toNat + 2 ≤ codeStart w.program ∨
      codeStart w.program + (codeBytes w.value w.program.code).length ≤ address.toNat)
    (hEnd : address.toNat + 2 ≤ Machine.memorySize) :
    (memory.setWord address u).Holds (codeStart w.program)
      (codeBytes w.value w.program.code) := by
  have hSize : Machine.memorySize = 65536 := rfl
  have hTop : stackTop.toNat = 64399 := rfl
  have hFits := h.size
  refine hCode.congr fun k hFrom hTo => ?_
  exact Machine.Memory.byte_setWord_of_apart hEnd (by omega) (by omega)

end Sound

end World

/-
  The machine runs a program, with some code behind it and
  the variables, the input and the output of some state.
-/
structure Running (w : World) (before : Code) (s : State) (m : Machine) : Prop
    extends Executing w.program w.value before m where
  sp : m.sp = stackTop
  store : ∀ x ref, w.place x = some ref → ref.word? w.value m.sp m.memory = some (s.store x)
  input : m.input = s.input
  output : m.output = s.output

namespace Running

/- The state after a word has been printed. -/
def printed (s : State) (u : UInt16) : State :=
  { s with output := s.output ++ toString (Machine.signed u) }

variable (h : Running w before s m)
include h

/- Some input is read, and status bits change. -/
theorem setInput
    (input : List Char)
    (flags : Machine.Flags) :
    Running w before { s with input := input }
      { m with input := input, flags := flags } :=
  ⟨⟨h.goes, h.pc, h.code⟩, h.sp, h.store, rfl, h.output⟩

/- Code that changes registers alone leaves the variables. -/
theorem executes {next : Machine}
    (hAt : w.program.code = before ++ code ++ behind)
    (hRun : Executes w.value code m next) :
    Steps code.length m next ∧ Running w (before ++ code) s next := by
  rcases h.toExecuting.executes hAt hRun with ⟨hSteps, hNext⟩
  refine ⟨hSteps, hNext, hRun.sp.trans h.sp, ?_,
    hRun.input.trans h.input, hRun.output.trans h.output⟩
  rw [hRun.sp, hRun.memory]
  exact h.store

variable {goal rest : Code} {j : Instruction} {target : String}

variable (hSound : w.Sound)
include hSound

/- A branch goes to its label, or on to what is behind it. -/
theorem decides {mn : Mnemonic} {taken : Bool} {last : Machine}
    (hAt : w.program.code = before ++ code ++ behind)
    (hDecides : Decides w.value code mn (w.value target) taken m last)
    (hGoal : w.program.code = goal ++ j :: rest)
    (hLabel : j.label = target)
    (hSome : target ≠ "") :
    Steps code.length m last ∧ Running w (if taken then goal else before ++ code) s last := by
  refine ⟨hDecides.performs.steps h.goes (h.holds hAt),
    ⟨hDecides.halted.trans h.goes, ?_, hDecides.memory ▸ h.code⟩, hDecides.sp.trans h.sp, ?_,
    hDecides.input.trans h.input, hDecides.output.trans h.output⟩
  · subst hLabel
    rw [hDecides.pc, hSound.label goal j rest hGoal hSome, h.pc, ← addressOf_append]
    cases taken <;> rfl
  · rw [hDecides.sp, hDecides.memory]
    exact h.store

/- A jump leads to the instruction with its label. -/
theorem jump
    (hAt : w.program.code = before ++ .jump .br target :: behind)
    (hGoal : w.program.code = goal ++ j :: rest)
    (hLabel : j.label = target)
    (hSome : target ≠ "") :
    ∃ last, Steps 1 m last ∧ Running w goal s last := by
  have hHere : Executes w.value [] m m := .nil m
  rcases hHere.decides target (rfl : Mnemonic.form .br = .branch) nofun with ⟨last, hLast⟩
  exact ⟨last, h.decides hSound (hAt.trans (append_cons ..)) hLast hGoal hLabel hSome⟩

/- An instruction that changes nothing is passed. -/
theorem passed (hAt : w.program.code = before ++ i :: behind) :
    Running w (before ++ [i]) s (m.passed w.value i) where
  toExecuting := h.toExecuting.passed hSound.fitting hAt
  sp := h.sp
  store := h.store
  input := h.input
  output := h.output

/- A word is stored in a variable. -/
theorem setWord
    (hPlace : w.place x = some ref)
    (hDirect : ref.mode = .direct) :
    Running w before { s with store := s.store.set x u }
      { m with memory := m.memory.setWord (w.value ref.target) u } := by
  have hSize : Machine.memorySize = 65536 := rfl
  have hBelow := hSound.below hPlace hDirect
  refine ⟨⟨h.goes, h.pc, hSound.code_setWord h.code (.inl hBelow.1) (by omega)⟩,
    h.sp, ?_, h.input, h.output⟩
  intro y ref' hPlace'
  change ref'.word? w.value m.sp (m.memory.setWord _ u) = some (s.store.set x u y)
  unfold Store.set
  by_cases hSame : y = x
  · subst hSame
    cases hPlace.symm.trans hPlace'
    unfold Reference.word?
    rw [hDirect, if_pos rfl]
    exact congrArg some (Machine.Memory.word_setWord ..)
  · rw [if_neg hSame, ← h.store y ref' hPlace']
    refine hSound.word?_setWord hPlace' (by omega) fun hOther => ?_
    exact hSound.apart y x ref' ref hPlace' hPlace hOther hDirect hSame

/- A word is printed as a signed number. -/
theorem print {field : Listing.Operand} {suffix : Mode} {mode : Addressing}
    (hAt : w.program.code = before ++ .of .deco field suffix :: behind)
    (hMode : suffix.addressing? = some mode) :
    ∃ last, Steps 1 m last ∧ Running w (before ++ [.of .deco field suffix])
        (printed s (m.operand (operandValue w.value field) mode)) last := by
  have hNext := h.passed hSound hAt
  have hFitting := hSound.fitting _ (hAt ▸ mem_append_right _ mem_cons_self)
  have hMnemonic := Machine.mnemonic_of w.value m hFitting rfl
  have hField := Machine.mode_of w.value m hFitting rfl rfl hMode
  refine ⟨(m.passed w.value (.of .deco field suffix)).print
      (toString (Machine.signed (m.operand (operandValue w.value field) mode))),
    h.step hSound.fitting hAt ?_, ⟨hNext.goes, hNext.pc, hNext.code⟩, hNext.sp, hNext.store,
    hNext.input, congrArg (· ++ _) hNext.output⟩
  unfold Machine.obey
  rw [Machine.execute_eq, hMnemonic]
  unfold Machine.executeGeneral
  simp only [hMnemonic, hField]
  rfl

/- The accumulator is printed through the word below the stack. -/
theorem print_scratch
    (hAt : w.program.code =
        before ++ .of .stwa Generator.scratch .stackRelative
          :: .of .deco Generator.scratch .stackRelative :: behind) :
    ∃ last, Steps 2 m last ∧
      Running w (before ++ [.of .stwa Generator.scratch .stackRelative,
          .of .deco Generator.scratch .stackRelative]) (printed s m.a) last := by
  have hSize : Machine.memorySize = 65536 := rfl
  have hTop : stackTop.toNat = 64399 := rfl
  have hScratch : (m.sp + 0xFFFE).toNat = 64397 := by
    rw [h.sp]
    rfl
  have hFits := hSound.size
  have hNext := h.passed hSound hAt
  have hFirst := h.step hSound.fitting hAt
    (Machine.obey_store w.value m .a Generator.scratch nofun rfl nofun)
  have hStored : Running w (before ++ [.of .stwa Generator.scratch .stackRelative]) s
      { m.passed w.value (.of .stwa Generator.scratch .stackRelative) with
        memory := m.memory.setWord (m.sp + 0xFFFE) m.a } := by
    refine ⟨⟨hNext.goes, hNext.pc, hSound.code_setWord h.code (.inr (by omega)) (by omega)⟩,
      h.sp, fun x ref hPlace => ?_, h.input, h.output⟩
    rw [← h.store x ref hPlace]
    refine hSound.word?_setWord hPlace (by omega) fun hDirect => .inl ?_
    have hBelow := hSound.below hPlace hDirect
    omega
  rcases hStored.print hSound (hAt.trans (append_cons ..)) rfl with ⟨last, hSecond, hLast⟩
  have hWord : (m.memory.setWord (m.sp + 0xFFFE) m.a).word (m.sp + 0xFFFE) = m.a :=
    Machine.Memory.word_setWord ..
  change Running w _ (printed s ((m.memory.setWord _ m.a).word (m.sp + 0xFFFE))) last at hLast
  rw [hWord, append_assoc] at hLast
  exact ⟨last, hFirst.trans hSecond, hLast⟩

end Running

end Compile

end Pep9
