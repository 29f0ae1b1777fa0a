import Pep9.Proofs.Compile.Calls

/-
  Activations of functions. From the entry to a function on, a
  run carries out the instructions of the function, and calls
  that come back; meanwhile the stack pointer is where the path
  of control through the code says that it is.

  Key theorems: `obey_sp`, `obey_pc`, `Active.follow`,
  `Active.enter`, `Active.path`, `Active.base`.
-/

namespace Pep9

open List
open Assembly (codeBytes instructionBytes operandValue)
open Compile (Code Fitting)
open Isa (Mnemonic)
open Listing (Instruction Program)
open Script (wordOf)

variable {before behind code flat : Code} {d : Int} {r : Routine}
  {result : Machine × Option Fault}

namespace Machine

variable {value : String → UInt16} {i : Instruction} {m next : Machine}

/-
  The machine finds the bytes of an instruction at the program
  counter, and carries it out without a fault.
-/
structure Carries (value : String → UInt16) (i : Instruction) (m next : Machine) : Prop where
  goes : m.halted = false
  bytes : m.memory.Holds m.pc.toNat (instructionBytes value i)
  step : m.step = (next, none)

/- The same for instructions one after another. -/
inductive CarriesAll (value : String → UInt16) : Code → Machine → Machine → Prop where
  | nil (m : Machine) : CarriesAll value [] m m
  | cons {i : Instruction} {rest : Code} {m next last : Machine} (hFirst : Carries value i m next)
      (hRest : CarriesAll value rest next last) : CarriesAll value (i :: rest) m last

section

variable (h : Carries value i m next) (hFitting : Fitting i)
include h hFitting

/- What is carried out is obeyed. -/
theorem Carries.obey_eq :
    m.obey value i = (next, none) := (step_eq_obey hFitting h.goes h.bytes).symm.trans h.step

/- A call, and a return, do what they do anywhere. -/
theorem Carries.called (hOp : i.op = .known .call) :
    next.pc = operandValue value i.operand ∧ next.sp = m.sp - 2 ∧
      ∃ address, next.memory = m.memory.setWord (m.sp - 2) address := by
  cases (h.obey_eq hFitting).symm.trans (obey_call hFitting hOp)
  exact ⟨rfl, rfl, _, rfl⟩

theorem Carries.returned (hOp : i.op = .known .ret) : next.sp = m.sp + 2 := by
  cases (h.obey_eq hFitting).symm.trans (obey_ret hFitting hOp)
  rfl

end

/- What is carried out in parts. -/
theorem CarriesAll.split {first second : Code} {last : Machine}
    (h : CarriesAll value (first ++ second) m last) :
    ∃ next, CarriesAll value first m next ∧
        CarriesAll value second next last := by
  induction first generalizing m with
  | nil => exact ⟨m, .nil m, h⟩
  | cons _ _ ih =>
    cases h with
    | cons hFirst hRest =>
      rcases ih hRest with ⟨next, hHere, hThere⟩
      exact ⟨next, .cons hFirst hHere, hThere⟩

theorem CarriesAll.obeyAll_eq
    (h : CarriesAll value code m next)
    (hFitting : ∀ i ∈ code, Fitting i) :
    obeyAll value code m = (next, none) := by
  induction h with
  | nil => rfl
  | cons hFirst _ ih =>
    rw [obeyAll, hFirst.obey_eq (hFitting _ mem_cons_self)]
    exact ih fun i hI => hFitting i (mem_cons_of_mem _ hI)

variable {f : Fetched}

/- Only four instructions move the stack pointer. -/
theorem Executed.sp
    (h : Executed m f result)
    (hCall : f.mnemonic ≠ .call)
    (hRet : f.mnemonic ≠ .ret)
    (hSub : f.mnemonic ≠ .subsp)
    (hAdd : f.mnemonic ≠ .addsp) :
    result.1.sp = m.sp := by
  cases h with
  | called h => exact absurd h hCall
  | returned h => exact absurd h hRet
  | moved _ _ h => exact absurd h (not_or.mpr ⟨hSub, hAdd⟩)
  | _ => rfl

/- Bytes are taken from the stack, or given back. -/
theorem obey_sinks {bytes : Int64}
    (hFitting : Fitting i)
    (hOp : i.op = .known .subsp ∨ i.op = .known .addsp)
    (hOperand : i.operand = .number bytes)
    (hMode : i.mode = .immediate)
    (h : m.obey value i = (next, none)) :
    next.sp = m.sp - UInt16.ofInt i.sinks ∧ next.memory = m.memory := by
  unfold Instruction.sinks
  rcases hOp with hOp | hOp
  · rcases obey_move value m hFitting hOp (.inl rfl) hOperand hMode with ⟨_, hMoved⟩
    cases h.symm.trans hMoved
    rw [hOp, hOperand]
    exact ⟨rfl, rfl⟩
  · rcases obey_move value m hFitting hOp (.inr rfl) hOperand hMode with ⟨_, hMoved⟩
    cases h.symm.trans hMoved
    rw [hOp, hOperand]
    refine ⟨?_, rfl⟩
    change m.sp + wordOf bytes = m.sp - UInt16.ofInt (-bytes.toInt)
    rw [UInt16.ofInt_neg, UInt16.sub_eq_add_neg, UInt16.neg_neg]
    rfl

/-
  The stack pointer is moved by as many bytes as the listing
  tells, except by calls and returns.
-/
theorem obey_sp
    (hFitting : Fitting i)
    (hMoves : i.op = .known .subsp ∨ i.op = .known .addsp →
        ∃ bytes, i.operand = .number bytes ∧ i.mode = .immediate)
    (hCall : i.op ≠ .known .call)
    (hRet : i.op ≠ .known .ret)
    (h : m.obey value i = (next, none)) :
    next.sp = m.sp - UInt16.ofInt i.sinks := by
  by_cases hMove : i.op = .known .subsp ∨ i.op = .known .addsp
  · rcases hMoves hMove with ⟨_, hOperand, hMode⟩
    exact (obey_sinks hFitting hMove hOperand hMode h).1
  · rw [not_or] at hMove
    have hKnown := (decodes_of value m.pc hFitting).op
    have hOther : ∀ mn, i.op ≠ .known mn → (Fetched.of value m.pc i).mnemonic ≠ mn := by
      intro _ hNe hEq
      exact hNe (hEq ▸ hKnown)
    have hSame := (execute_executed (m.passed value i) (.of value m.pc i)).sp
      (hOther _ hCall) (hOther _ hRet) (hOther _ hMove.1) (hOther _ hMove.2)
    change (m.obey value i).1.sp = m.sp at hSame
    rw [h] at hSame
    rw [Instruction.sinks_of_ne hKnown (hOther _ hMove.1) (hOther _ hMove.2), hSame]
    exact (UInt16.sub_zero m.sp).symm

theorem Executed.pc
    (h : Executed m f result)
    (hForm : f.mnemonic.form ≠ .branch)
    (hRet : f.mnemonic ≠ .ret) :
    result.1.pc = m.pc := by
  cases h with
  | called h => exact absurd (congrArg Mnemonic.form h) hForm
  | branched _ h => exact absurd h hForm
  | returned h => exact absurd h hRet
  | _ => rfl

theorem fallsThrough_of_ne {mn : Mnemonic}
    (hOp : i.op = .known mn)
    (hBr : mn ≠ .br)
    (hRet : mn ≠ .ret)
    (hTrap : mn ≠ .rettr)
    (hStop : mn ≠ .stop) :
    i.fallsThrough = true := by
  unfold Instruction.fallsThrough
  rw [hOp]
  split <;> simp_all

/-
  Where control is after an instruction that is neither a call
  nor a return: at the label of a branch, or behind it.
-/
theorem obey_pc
    (hFitting : Fitting i)
    (hCall : i.op ≠ .known .call)
    (hRet : i.op ≠ .known .ret)
    (h : m.obey value i = (next, none))
    (hGoes : next.halted = false) :
    (i.fallsThrough = true ∧ next.pc = m.pc + UInt16.ofNat (instructionBytes value i).length) ∨
      ∃ mn, i.op = .known mn ∧ mn.form = .branch ∧ next.pc = operandValue value i.operand := by
  have hDecodes := decodes_of value m.pc hFitting
  have hBehind := passed_pc value m hFitting
  have hOther : ∀ mn, i.op ≠ .known mn → (Fetched.of value m.pc i).mnemonic ≠ mn := by
    intro _ hNe hEq
    exact hNe (hEq ▸ hDecodes.op)
  by_cases hForm : (Fetched.of value m.pc i).mnemonic.form = .branch
  · cases h.symm.trans (obey_branch hFitting hDecodes.op hForm (hOther _ hCall))
    by_cases hTakes : m.flags.takes (Fetched.of value m.pc i).mnemonic = true
    · exact .inr ⟨_, hDecodes.op, hForm, if_pos hTakes⟩
    · refine .inl ⟨fallsThrough_of_ne hDecodes.op ?_ ?_ ?_ ?_, (if_neg hTakes).trans hBehind⟩
      · intro hBr
        rw [hBr] at hTakes
        exact hTakes rfl
      · exact hOther _ hRet
      · intro hTrap
        rw [hTrap] at hForm
        cases hForm
      · intro hStop
        rw [hStop] at hForm
        cases hForm
  · have hOn := (execute_executed (m.passed value i) (.of value m.pc i)).pc hForm (hOther _ hRet)
    change (m.obey value i).1.pc = _ at hOn
    rw [h, hBehind] at hOn
    refine .inl ⟨fallsThrough_of_ne hDecodes.op ?_ ?_ ?_ ?_, hOn⟩
    · intro hBr
      rw [hBr] at hForm
      exact hForm rfl
    · exact hOther _ hRet
    · intro hTrap
      unfold obey at h
      rw [execute_eq, hTrap] at h
      unfold executeUnary at h
      simp only [hTrap] at h
      cases h
    · intro hStop
      unfold obey at h
      rw [execute_eq, hStop] at h
      unfold executeUnary at h
      simp only [hStop] at h
      cases h
      cases hGoes

end Machine

namespace Compile

------------------------------------------------------------
-- Activations
------------------------------------------------------------

/-
  One activation of some code of a program: a run from a place
  of the code to another one, each with the state of the
  machine there. A call is part of it once the run of what is
  called has come to a return, and that leads behind the call.
-/
inductive Active (p : Program) (value : String → UInt16) :
    Nat → Machine → Nat → Machine → Prop where
  | start {first : Nat} {entry : Machine} (hPC : entry.pc = addressOf p value (p.code.take first)) :
      Active p value first entry first entry
  | step {first k n : Nat} {entry m next : Machine} {i : Instruction}
      (hRun : Active p value first entry k m) (hAt : p.code[k]? = some i)
      (hCall : i.op ≠ .known .call) (hCarries : Machine.Carries value i m next)
      (hGoes : Goes p.code k n) (hPC : next.pc = addressOf p value (p.code.take n)) :
      Active p value first entry n next
  | call {first k goal last : Nat} {entry m called inner back : Machine}
      {i target ret : Instruction} (hRun : Active p value first entry k m)
      (hAt : p.code[k]? = some i) (hCall : i.op = .known .call)
      (hCarries : Machine.Carries value i m called) (hGoal : p.code[goal]? = some target)
      (hLabel : i.operand = .symbol target.label) (hInner : Active p value goal called last inner)
      (hLast : p.code[last]? = some ret) (hRet : ret.op = .known .ret)
      (hReturns : Machine.Carries value ret inner back)
      (hPC : back.pc = addressOf p value (p.code.take (k + 1))) :
      Active p value first entry (k + 1) back

/-
  What is known of a program and of its functions, each with
  the code before it: what their names stand for, that calls go
  to them, and that control and the stack pointer keep to their
  streams.
-/
structure Linkage (p : Program) (value : String → UInt16)
    (routines : Code → Routine → Prop) : Prop where
  fitting : ∀ i ∈ p.code, Fitting i
  moves : ∀ i ∈ p.code, i.op = .known .subsp ∨ i.op = .known .addsp →
      ∃ bytes, i.operand = .number bytes ∧ i.mode = .immediate
  label : ∀ (k : Nat) (i : Instruction), p.code[k]? = some i → i.label ≠ "" →
        value i.label = addressOf p value (p.code.take k)
  lands : ∀ i ∈ p.code, ∀ mn, i.op = .known mn → mn.form = .branch → ∃ (k : Nat) (j : Instruction),
        p.code[k]? = some j ∧ j.label ≠ "" ∧ i.operand = .symbol j.label
  calls : ∀ i ∈ p.code, i.op = .known .call →
      ∃ start r, routines start r ∧ i.operand = .symbol r.label
  entry : ∀ start r, routines start r → ∀ (k : Nat) (i : Instruction), p.code[k]? = some i →
        i.label = r.label → k = start.length
  stream : ∀ start r, routines start r → ∃ inside,
        Stream p.code (frameNames p.frames) inside start.length (some r.sig.localsSize)
  roomy : ∀ start r, routines start r → r.sig.Roomy
  names : ∀ start r, routines start r → ∀ d ∈ r.decls, d.name ∈ frameNames p.frames
  params : ∀ start r, routines start r → ∀ (j : Nat) (name : String) (b : Binding),
        r.sig.params[j]? = some name → r.data.find name = some b → b.target ∈ frameNames p.frames ∧
            value b.target = UInt16.ofNat (r.sig.localBytes + 2 + 2 * j)

/-
  Code that control passes from its start to its end, with the
  stack pointer as it is.
-/
def Flat (code : Code) : Prop := ∀ i ∈ code, i.fallsThrough = true ∧ i.sinks = 0

theorem flat_nil : Flat [] := fun _ hI => absurd hI not_mem_nil

theorem joined_flat (ctx : Context) : Joined ctx Flat := by
  refine .of_quiet flat_nil (fun hFirst hSecond => forall_mem_append.mpr ⟨hFirst, hSecond⟩)
    (fun hQuiet _ _ => forall_mem_singleton.mpr
      ⟨?_, Instruction.sinks_of_ne rfl hQuiet.sub hQuiet.add⟩)
    (forall_mem_singleton.mpr ⟨rfl, rfl⟩) fun _ _ => forall_mem_singleton.mpr ⟨rfl, rfl⟩
  have hForm := hQuiet.form
  unfold Instruction.fallsThrough Instruction.of
  split
  all_goals
    first
    | rfl
    | next hOp =>
      cases hOp
      cases hForm

/- Expressions without calls of functions have such code. -/
theorem freeCases_flat (ctx : Context) :
    FreeCases ctx fun _ _ code => Flat code where
  literal := (joined_flat ctx).operand isRead_load
  name := (joined_flat ctx).operand isRead_load
  element := (joined_flat ctx).operand isRead_load
  arith := fun hOp _ hFirst h =>
    (joined_flat ctx).append hFirst ((joined_flat ctx).operand (isRead_arith hOp) h)
  int := id

/- A path goes on through such code. -/
theorem Path.along {start : Nat}
    (hPath : Path code start before.length d)
    (hCode : code = before ++ flat ++ behind)
    (hFlat : Flat flat) :
    Path code start (before ++ flat).length d := by
  induction flat generalizing before with
  | nil =>
    rw [append_nil]
    exact hPath
  | cons i rest ih =>
    rcases hFlat i mem_cons_self with ⟨hFalls, hSinks⟩
    have hNext : code = before ++ [i] ++ rest ++ behind := by
      rw [hCode]
      simp only [append_assoc, cons_append, nil_append]
    have hAt : code[before.length]? = some i := by
      rw [hCode, append_assoc, getElem?_append_right (Nat.le_refl _), Nat.sub_self]
      rfl
    have hStep : Path code start (before ++ [i]).length d := by
      have hHere := hPath.step hAt (.next hAt hFalls)
      rw [hSinks, Int.add_zero] at hHere
      rwa [length_append, length_singleton]
    have hRest := ih hStep hNext fun j hJ => hFlat j (mem_cons_of_mem _ hJ)
    rwa [append_assoc, singleton_append] at hRest

section Linkage

variable {start : Code}
  {p : Program} {value : String → UInt16}
  {routines : Code → Routine → Prop} {first k : Nat} {entry m next : Machine} {i : Instruction}

/- The next instruction is behind the bytes of this one. -/
theorem addressOf_succ (hAt : p.code[k]? = some i) :
    addressOf p value (p.code.take (k + 1)) =
      addressOf p value (p.code.take k) + UInt16.ofNat (instructionBytes value i).length := by
  rw [take_add_one, hAt, Option.toList_some, addressOf_append]
  unfold codeBytes
  rw [flatMap_singleton]

/- The program counter is at the place of an activation. -/
theorem Active.pc (h : Active p value first entry k m) :
    m.pc = addressOf p value (p.code.take k) := by
  cases h with
  | start hPC | step _ _ _ _ _ hPC | call _ _ _ _ _ _ _ _ _ _ hPC => exact hPC

/- An activation is a run of the machine. -/
theorem Active.steps (h : Active p value first entry k m) :
    ∃ n, Machine.Steps n entry m := by
  have hOne : ∀ {i : Instruction} {m next : Machine},
        Machine.Carries value i m next → Machine.Steps 1 m next :=
    fun hCarries => .single hCarries.goes hCarries.step
  induction h with
  | start => exact ⟨0, .refl _⟩
  | step _ _ _ hCarries _ _ ih =>
    rcases ih with ⟨_, hSteps⟩
    exact ⟨_, hSteps.trans (hOne hCarries)⟩
  | call _ _ _ hCarries _ _ _ _ _ hReturns _ ih ihInner =>
    rcases ih with ⟨_, hSteps⟩
    rcases ihInner with ⟨_, hSteps'⟩
    exact ⟨_, ((hSteps.trans (hOne hCarries)).trans hSteps').trans (hOne hReturns)⟩

variable (hLinkage : Linkage p value routines)
include hLinkage

/-
  Whatever the machine does next in an activation, without a
  call and without a return, is part of the activation.
-/
theorem Active.follow
    (h : Active p value first entry k m)
    (hAt : p.code[k]? = some i)
    (hCall : i.op ≠ .known .call)
    (hRet : i.op ≠ .known .ret)
    (hCarries : Machine.Carries value i m next)
    (hGoes : next.halted = false) :
    ∃ n, Active p value first entry n next := by
  have hMem := mem_of_getElem? hAt
  have hFitting := hLinkage.fitting i hMem
  rcases Machine.obey_pc hFitting hCall hRet (hCarries.obey_eq hFitting)
    hGoes with ⟨hFalls, hPC⟩ | ⟨mn, hOp, hForm, hPC⟩
  · refine ⟨k + 1, h.step hAt hCall hCarries (.next hAt hFalls) ?_⟩
    rw [hPC, h.pc, addressOf_succ hAt]
  · rcases hLinkage.lands i hMem mn hOp hForm with ⟨n, j, hGoal, hSome, hOperand⟩
    have hJump : i.jumpsTo? = some j.label := by
      unfold Instruction.jumpsTo?
      rw [hOp, hOperand]
      refine if_pos ⟨hForm, ?_⟩
      rintro rfl
      exact hCall hOp
    refine ⟨n, h.step hAt hCall hCarries (.branch hAt hJump hGoal rfl) ?_⟩
    rw [hPC, hOperand, ← hLinkage.label n j hGoal hSome]
    rfl

/- A call enters a function, in an activation of its own. -/
theorem Active.enter
    (hAt : p.code[k]? = some i)
    (hCall : i.op = .known .call)
    (hCarries : Machine.Carries value i m next) :
    ∃ start r, routines start r ∧ i.operand = .symbol r.label ∧
        Active p value start.length next start.length next := by
  have hMem := mem_of_getElem? hAt
  have hFitting := hLinkage.fitting i hMem
  rcases hLinkage.calls i hMem hCall with ⟨start, r, hR, hOperand⟩
  rcases hLinkage.lands i hMem .call hCall rfl with ⟨n, j, hGoal, hSome, hSame⟩
  have hLabel := Listing.Operand.symbol.inj (hSame.symm.trans hOperand)
  obtain rfl := hLinkage.entry start r hR n j hGoal hLabel
  refine ⟨start, r, hR, hOperand, .start ?_⟩
  rw [(hCarries.called hFitting hCall).1, hSame, ← hLinkage.label _ j hGoal hSome]
  rfl

/-
  A run goes along a path, and the stack pointer tells the
  bytes that the path has taken.
-/
theorem Active.path (h : Active p value first entry k m) :
    ∃ d, Path p.code first k d ∧ m.sp = entry.sp - UInt16.ofInt d := by
  induction h with
  | start => exact ⟨0, .start, (UInt16.sub_zero _).symm⟩
  | @step _ _ _ _ _ next i _ hAt hCall hCarries hGoes _ ih =>
    rcases ih with ⟨d, hPath, hSP⟩
    have hMem := mem_of_getElem? hAt
    have hRet : i.op ≠ .known .ret := by
      intro hOp
      cases hGoes with
      | next hHere hFalls =>
        cases hAt.symm.trans hHere
        rw [Instruction.fallsThrough, hOp] at hFalls
        cases hFalls
      | branch hHere hJump =>
        cases hAt.symm.trans hHere
        rcases Instruction.jumpsTo?_eq_some hJump with ⟨_, hKnown, _, hForm, _⟩
        cases hOp.symm.trans hKnown
        cases hForm
    have hMoved := Machine.obey_sp (hLinkage.fitting i hMem) (hLinkage.moves i hMem) hCall hRet
      (hCarries.obey_eq (hLinkage.fitting i hMem))
    refine ⟨d + i.sinks, hPath.step hAt hGoes, ?_⟩
    rw [hMoved, hSP, UInt16.ofInt_add]
    grind
  | @call _ _ goal _ _ m _ _ _ i target ret _ hAt hCall hCarries hGoal hLabel _ hLast hRet
      hReturns _ ih ihInner =>
    rcases ih with ⟨d, hPath, hSP⟩
    rcases ihInner with ⟨_, hPath', hSP'⟩
    have hMem := mem_of_getElem? hAt
    -- What is called is a function, and it returns at no level.
    rcases hLinkage.calls i hMem hCall with ⟨start, r, hR, hOperand⟩
    have hSame := Listing.Operand.symbol.inj (hLabel.symm.trans hOperand)
    obtain rfl := hLinkage.entry start r hR goal target hGoal hSame
    rcases hLinkage.stream start r hR with ⟨_, hStream⟩
    obtain rfl := hStream.returns _ _ _ hPath' hLast hRet
    have hFitting := hLinkage.fitting i hMem
    have hFitting' := hLinkage.fitting ret (mem_of_getElem? hLast)
    have hFalls : i.fallsThrough = true := by
      rw [Instruction.fallsThrough, hCall]
    refine ⟨d + i.sinks, hPath.step hAt (.next hAt hFalls), ?_⟩
    rw [Instruction.sinks_of_ne hCall (by decide) (by decide), Int.add_zero, ← hSP,
      hReturns.returned hFitting' hRet, hSP', (hCarries.called hFitting hCall).2.1]
    change m.sp - 2 - 0 + 2 = m.sp
    rw [UInt16.sub_zero, UInt16.sub_add_cancel]

/- The bytes of the locals are those that the frame takes. -/
theorem Linkage.level
    (hR : routines start r)
    (hPath : Path p.code start.length k d)
    (hAt : p.code[k]? = some i)
    (hUse :
      i.op = .known .movspa ∨ ∃ name ∈ frameNames p.frames, i.operand = .symbol name) :
    UInt16.ofInt d = UInt16.ofNat r.sig.localBytes := by
  have hRoomy := hLinkage.roomy start r hR
  have hFrame : r.sig.localBytes ≤ r.sig.frameBytes := by
    unfold Signature.frameBytes
    omega
  have hFits := hRoomy.fits
  have hSize : Machine.memorySize = 65536 := rfl
  rcases hLinkage.stream start r hR with ⟨_, hStream⟩
  rcases hStream.framed _ _ _ hPath hAt hUse with ⟨_, hSome, rfl⟩
  cases hSome
  rw [hRoomy.localsSize_eq, Int64.toInt_ofNat_of_lt (by omega),
    Int.max_eq_right (Int.natCast_nonneg _), ← Script.wordOf_ofNat]
  unfold wordOf
  rw [Int64.toInt_ofNat_of_lt (by omega)]

/-
  Before an instruction that uses the frame, the stack pointer
  is at its base: the bytes of the locals below where it was
  when the function was entered.
-/
theorem Active.base
    (hR : routines start r)
    (h : Active p value start.length entry before.length m)
    (hCode : p.code = before ++ flat ++ i :: behind)
    (hFlat : Flat flat)
    (hUse :
      i.op = .known .movspa ∨ ∃ name ∈ frameNames p.frames, i.operand = .symbol name) :
    m.sp = entry.sp - UInt16.ofNat r.sig.localBytes := by
  rcases h.path hLinkage with ⟨_, hPath, hSP⟩
  have hAt : p.code[(before ++ flat).length]? = some i := by
    rw [hCode, getElem?_append_right (Nat.le_refl _), Nat.sub_self]
    rfl
  rw [hSP, hLinkage.level hR (hPath.along hCode hFlat) hAt hUse]

end Linkage

end Compile

end Pep9
