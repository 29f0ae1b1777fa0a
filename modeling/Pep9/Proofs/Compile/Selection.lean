import Pep9.Proofs.Compile.Liveness
import Pep9.Proofs.Compile.Passing

/-
  The choice of registers. Names that index are computed in the
  index register, and all others in the accumulator. Whichever
  names index, the code of an assignment, of a condition or of
  an argument has the same effect on all but the registers. No
  statement depends on what the registers hold before it.

  Key theorems: `execute_paired`, `exprCode_twins`,
  `registers_interchangeable`.
-/

namespace Pep9

open List Result
open Isa (Mnemonic)
open Listing (Instruction Mode)
open Machine (Fetched obeyAll execute_eq passed obeyAll_single obeyAll_append)
open Script (Expr Stmt)

variable {arg test : Expr} {exit label name : String} {k : Nat} {trace : Code}

namespace Compile

/- The instructions that there are for either register. -/
def Register.operations : List (Register → Mnemonic) :=
  [load, add, subtract, compare, store]

/-
  States that differ in nothing but registers, with the same
  word in a register of each.
-/
structure Paired (r r' : Register) (m m' : Machine) : Prop where
  alike : Machine.Alike unknown m m'
  read : r'.read m' = r.read m

section Pairs

variable {value : String → UInt16} {op : Register → Mnemonic} {r r' : Register}
  {field : Listing.Operand} {suffix : Mode} {m m' : Machine}

variable (hOp : op ∈ Register.operations)
include hOp

/- All operations on a register have an operand. -/
theorem form_of_operation (r : Register) :
    (op r).form = .general := by
  simp only [Register.operations, mem_cons, not_mem_nil, or_false] at hOp
  rcases hOp with rfl | rfl | rfl | rfl | rfl <;> cases r <;> rfl

variable (value m) in
/- The instruction of a register, as it is fetched. -/
theorem fetched_operation (hFitting : Fitting (.of (op r) field suffix)) :
    (Fetched.of value m.pc (.of (op r) field suffix)).mnemonic = op r ∧ suffix.addressing? =
        some (Fetched.of value m.pc (.of (op r) field suffix)).mode ∧
      ((op r).writesOperand = true →
        (Fetched.of value m.pc (.of (op r) field suffix)).mode ≠ .immediate) := by
  have hName := Machine.mnemonic_of value m hFitting rfl
  have hForm := form_of_operation hOp r
  have hMode :=
    ((Machine.decodes_of value m.pc hFitting).general (by rw [hName]; exact hForm)).1
  refine ⟨hName, hMode, fun hWrites hImmediate => ?_⟩
  have hNot : suffix ≠ .immediate := hFitting.not_immediate rfl hWrites
  change suffix.addressing? = _ at hMode
  rw [hImmediate] at hMode
  cases suffix <;> first | cases hMode; done | exact hNot rfl

/-
  The same done in either register. The index register may be
  different only where it has no part in the address.
-/
theorem execute_paired {f f' : Fetched}
    (hName : f.mnemonic = op r)
    (hName' : f'.mnemonic = op r')
    (hSpec : f'.spec = f.spec)
    (hPlace : (op r).writesOperand = true → f.mode ≠ .immediate)
    (hMode : suffix.addressing? = some f.mode)
    (hMode' : suffix.addressing? = some f'.mode)
    (hAlike : Machine.Alike unknown m m')
    (hIndex : suffix.isIndexed = true → m'.x = m.x)
    (hRead : op r ∈ r.readers → r'.read m' = r.read m) :
    ∃ last last', m.execute f = (last, none) ∧ m'.execute f' = (last', none) ∧
        Paired r r' last last' := by
  have hForm := form_of_operation hOp
  have hOperand : Machine.operand { m with a := m'.a, x := m'.x } f.spec f.mode =
      m.operand f.spec f.mode := Machine.operand_alike hMode hIndex
  have hAddress : Machine.address { m with a := m'.a, x := m'.x } f.spec f.mode =
      m.address f.spec f.mode := Machine.address_alike hMode hIndex
  have hSame := Option.some.inj (hMode'.symm.trans hMode)
  rw [← hAlike.same] at hOperand hAddress
  rw [execute_eq, execute_eq, hName, hName', hForm, hForm]
  unfold Machine.executeGeneral Machine.store
  simp only [hName, hName', hSpec, hSame, hOperand, hAddress]
  rcases m' with ⟨_, _⟩
  cases hAlike.same
  simp only [Register.operations, mem_cons, not_mem_nil, or_false] at hOp
  rcases hOp with rfl | rfl | rfl | rfl | rfl <;> cases r <;> cases r' <;>
    try simp only [if_neg (hPlace rfl)]
  all_goals
    refine ⟨_, _, rfl, rfl, ?_⟩
    first
      | exact ⟨⟨rfl, nofun⟩, rfl⟩
      | (cases hRead (by decide); exact ⟨⟨rfl, nofun⟩, rfl⟩)

variable (value) in
/- The same, for an instruction of a listing. -/
theorem obey_paired
    (hFitting : Fitting (.of (op r) field suffix))
    (hFitting' : Fitting (.of (op r') field suffix))
    (hAlike : Machine.Alike unknown m m')
    (hIndex : suffix.isIndexed = true → m'.x = m.x)
    (hRead : op r ∈ r.readers → r'.read m' = r.read m) :
    ∃ last last', obeyAll value [.of (op r) field suffix] m = (last, none) ∧
        obeyAll value [.of (op r') field suffix] m' = (last', none) ∧ Paired r r' last last' := by
  rcases fetched_operation value m hOp hFitting with ⟨hName, hMode, hPlace⟩
  rcases fetched_operation value m' hOp hFitting' with ⟨hName', hMode', _⟩
  have hLength : (op r').length = (op r).length := by
    unfold Mnemonic.length
    rw [form_of_operation hOp, form_of_operation hOp]
  have hNext : Machine.Alike unknown (m.passed value (.of (op r) field suffix))
        (m'.passed value (.of (op r') field suffix)) := by
    refine ⟨?_, nofun⟩
    unfold passed Machine.advance
    rw [Fetched.length_eq, Fetched.length_eq, hName, hName', hLength]
    exact congrArg (fun s : Machine =>
        { s with
          pc := s.pc + UInt16.ofNat (op r).length
          steps := s.steps + 1 })
      hAlike.same
  rcases execute_paired hOp hName hName' rfl hPlace
    hMode hMode' hNext hIndex (by simpa only [Machine.read_passed] using hRead) with
    ⟨last, last', hLast, hLast', hPaired⟩
  exact ⟨last, last', obeyAll_single hLast, obeyAll_single hLast', hPaired⟩

end Pairs

section Operands

variable {value : String → UInt16} {ctx ctx' : Context}
  {op : Register → Mnemonic} {operand : Simple} {r r' : Register}
  {code code' : Code} {m m' : Machine}

theorem Emitted.fitting (h : Emitted ctx code) : ∀ i ∈ code, Fitting i := by
  intro _ hI
  rcases h.uses.of_mem hI with ⟨_, _, hUse⟩
  exact hUse.fitting

/- Only references matter to the code of an operand. -/
theorem operandCode_congr (hRef : ctx'.reference = ctx.reference) :
    ctx'.operandCode op r operand = ctx.operandCode op r operand := by
  cases operand with
  | literal => rfl
  | name =>
    unfold Context.operandCode
    rw [hRef]
  | element =>
    unfold Context.operandCode Context.elementCode Context.arrayReference Context.indexCode
    rw [hRef]

/- The operand of either register is known in the same way. -/
theorem operandCode_paired
    (hOp : op ∈ Register.operations)
    (hRead : ∀ s, IsRead (op s))
    (h : ctx.operandCode op r operand = .ok code)
    (h' : ctx.operandCode op r' operand = .ok code')
    (hAlike : Machine.Alike unknown m m')
    (hSame : op r ∈ r.readers → r'.read m' = r.read m) :
    ∃ last last', obeyAll value code m = (last, none) ∧
        obeyAll value code' m' = (last', none) ∧ Paired r r' last last' := by
  have hFits : ∀ {s code i}, ctx.operandCode op s operand = .ok code → i ∈ code → Fitting i :=
    fun hCode hI => ((joined_emitted ctx).operand hRead hCode).fitting _ hI
  cases operandCode_parts h with
  | direct hDirect hBoth =>
    cases (hBoth r').symm.trans h'
    refine obey_paired value hOp (hFits h mem_cons_self)
      (hFits h' mem_cons_self) hAlike ?_ hSame
    rw [hDirect.plain]
    nofun
  | @element _ position ref offset hOnly _ hOffset =>
    subst hOnly
    obtain rfl : r' = .a := by
      cases r' with
      | a => rfl
      | x => cases h'
    cases h.symm.trans h'
    have hFitting := fun i => hFits (i := i) h
    rcases indexCode_executes value m hOffset with ⟨_, next, _, hNext, _, _⟩
    rcases indexCode_settled hOffset with ⟨hSettled, hIndex, hKept⟩
    -- whatever the registers have in common stays so
    have hCommon : Machine.Alike (fun s => s.read m' = s.read m) m m' :=
      ⟨hAlike.same, fun _ hR => hR⟩
    rcases Settled.alike value (hSettled.mono fun _ hNone => hNone.elim)
      (fun i hI => hFitting i (mem_append_left _ hI)) hCommon with ⟨hFault, hBehind⟩
    generalize hNext' : obeyAll value offset m' = out at hFault hBehind
    rcases out with ⟨next', _⟩
    rw [hNext.obeys] at hFault hBehind
    cases hFault
    have hLast := hFitting _ (mem_append_right _ mem_cons_self)
    rcases obey_paired value hOp hLast hLast
      (hBehind.mono fun _ hNone => hNone.elim) (fun _ => hBehind.read .x ⟨rfl, hIndex _⟩)
      (fun hMem => hBehind.read .a ⟨rfl, hKept _ _ (hSame hMem)⟩) with
      ⟨last, last', hDone, hDone', hPaired⟩
    exact ⟨last, last', (obeyAll_append hNext.obeys).trans hDone,
      (obeyAll_append hNext').trans hDone', hPaired⟩

end Operands

/-
  Two pieces of code that leave the same word in a register
  each, and differ in nothing but registers otherwise.
-/
def Twin (r r' : Register) (code code' : Code) : Prop :=
  ∀ (value : String → UInt16) (m m' : Machine), Machine.Alike unknown m m' →
      ∃ last last', obeyAll value code m = (last, none) ∧
          obeyAll value code' m' = (last', none) ∧ Paired r r' last last'

/-
  Two pieces of code that have the same outcome, but for what
  they leave in registers.
-/
def Interchangeable (code code' : Code) : Prop :=
  ∀ (value : String → UInt16) (m m' : Machine), Machine.Alike unknown m m' →
      (obeyAll value code' m').2 = (obeyAll value code m).2 ∧
        Machine.Alike unknown (obeyAll value code m).1 (obeyAll value code' m').1

section Expressions

variable {ctx ctx' : Context} {r r' : Register} {e : Expr} {code code' second second' : Code}
  {operand : Simple}

theorem Settled.interchangeable
    (h : Settled unknown code)
    (hFitting : ∀ i ∈ code, Fitting i) :
    Interchangeable code code := by
  intro value _ _ hAlike
  rcases h.alike value hFitting hAlike with ⟨hFault, hLast⟩
  exact ⟨hFault, hLast.mono fun _ hNone => hNone.elim⟩

/- An operand is loaded into either register. -/
theorem twin_load
    (h : ctx.operandCode Register.load r operand = .ok code)
    (h' : ctx.operandCode Register.load r' operand = .ok code') :
    Twin r r' code code' := by
  intro _ _ _ hAlike
  refine operandCode_paired (by simp [Register.operations]) isRead_load h h' hAlike fun hMem => ?_
  cases r <;> exact absurd hMem (by decide)

/- One more operand is brought into the register. -/
theorem Twin.append {op : Register → Mnemonic}
    (hFirst : Twin r r' code code')
    (hOp : op ∈ Register.operations)
    (hRead : ∀ s, IsRead (op s))
    (h : ctx.operandCode op r operand = .ok second)
    (h' : ctx.operandCode op r' operand = .ok second') :
    Twin r r' (code ++ second) (code' ++ second') := by
  intro value m m' hAlike
  rcases hFirst value m m' hAlike with ⟨_, _, hNext, hNext', hPaired⟩
  rw [obeyAll_append hNext, obeyAll_append hNext']
  exact operandCode_paired hOp hRead h h' hPaired.alike fun _ => hPaired.read

theorem operations_of_arith {op : Script.Arith} {apply : Register → Mnemonic}
    (h : arithOp? op = some apply) :
    apply ∈ Register.operations := by
  cases op <;> cases h <;> simp [Register.operations]

/- Expressions without calls, by their cases. -/
theorem freeCases_twins (hRef : ctx'.reference = ctx.reference) :
    FreeCases ctx fun r e code =>
      ∀ r' code', exprCode ctx' r' e = .ok code' →
        Twin (resultRegister e r) (resultRegister e r') code code' where
  literal := fun h _ _ h' => twin_load h ((operandCode_congr hRef).symm.trans h')
  name := fun h _ _ h' => twin_load h ((operandCode_congr hRef).symm.trans h')
  element := fun h _ _ h' => twin_load h ((operandCode_congr hRef).symm.trans h')
  arith := by
    intro _ _ _ _ _ _ _ _ hOp hSimple hFirst h _ _ h'
    simp only [exprCode, hOp, hSimple] at h'
    rcases seq h' with ⟨_, hFirst', h₁⟩
    rcases seq h₁ with ⟨_, hSecond', hDone⟩
    cases hDone
    rw [operandCode_congr hRef] at hSecond'
    have hTwin := hFirst _ _ hFirst'
    rw [resultRegister_left, resultRegister_left] at hTwin
    exact hTwin.append (operations_of_arith hOp) (isRead_arith hOp) h hSecond'
  int := by
    intro _ _ _ hArg _ code' h'
    have hTwin := hArg .a code' h'
    rwa [resultRegister_a] at hTwin

theorem exprCode_twins
    (hRef : ctx'.reference = ctx.reference)
    (hCalls : callsDefined e = false)
    (h : exprCode ctx r e = .ok code)
    (h' : exprCode ctx' r' e = .ok code') :
    Twin (resultRegister e r) (resultRegister e r') code code' :=
  (freeCases_twins hRef).expr h hCalls r' code' h'

/- What was in different registers is stored in the same place. -/
theorem Twin.store {field : Listing.Operand} {suffix : Mode}
    (h : Twin r r' code code')
    (hPlain : suffix.isIndexed = false)
    (hFitting : Fitting (.of r.store field suffix))
    (hFitting' : Fitting (.of r'.store field suffix)) :
    Interchangeable (code ++ [.of r.store field suffix])
      (code' ++ [.of r'.store field suffix]) := by
  intro value m m' hAlike
  rcases h value m m' hAlike with ⟨next, next', hNext, hNext', hPaired⟩
  rcases obey_paired value (by simp [Register.operations]) hFitting hFitting' hPaired.alike
    (fun hIndexed => absurd hIndexed (Bool.eq_false_iff.mp hPlain))
    (fun _ => hPaired.read) with ⟨_, _, hLast, hLast', hStored⟩
  rw [obeyAll_append hNext, obeyAll_append hNext', hLast, hLast']
  exact ⟨rfl, hStored.alike⟩

end Expressions

------------------------------------------------------------
-- Statements
------------------------------------------------------------

variable {code : Code}

theorem conditionCode_fitting {ctx : Context}
    (h : ctx.conditionCode label exit test = .ok code) :
    ∀ i ∈ code, Fitting i := by
  rcases conditionCode_uses h with ⟨_, _, rfl, hForm, _, hUses⟩
  refine forall_mem_append.mpr ⟨fun _ hI => ?_,
    forall_mem_singleton.mpr (.branch hForm nofun)⟩
  rcases hUses.of_mem hI with ⟨_, _, hUse⟩
  exact hUse.fitting

theorem assembled_fitting : Assembled fun code => ∀ i ∈ code, Fitting i where
  nil := nofun
  append := fun hFirst hSecond => forall_mem_append.mpr ⟨hFirst, hSecond⟩
  plain := fun h => h.emitted.fitting
  condition := conditionCode_fitting
  jump := fun _ => forall_mem_singleton.mpr (.branch rfl nofun)
  mark := fun _ => forall_mem_singleton.mpr (.unary rfl)
  adjust := by
    rintro _ hM _ _ hI
    unfold adjustStack at hI
    split at hI
    · rw [mem_singleton.mp hI]
      rcases hM with rfl | rfl
      · exact .general rfl nofun rfl fun _ => rfl
      · exact .general rfl nofun rfl fun _ => rfl
    · cases hI
  ret := forall_mem_singleton.mpr (.unary rfl)

section Statements

variable {g g' : Generator} {ctx ctx' : Context} {code' : Code} {value : Expr}

section

variable (hRef : g'.context.reference = g.context.reference)
include hRef

/- A store does not depend on the register it is from. -/
theorem storeCode_interchangeable {ref : Reference}
    (hFound : g.context.reference name = .ok ref)
    (hConstant : isConstantName name = false)
    (hMode : ref.mode.isIndexed = false)
    (hCalls : callsDefined value = false)
    (h : g.storeCode name ref value = .ok code)
    (h' : g'.storeCode name ref value = .ok code') :
    Interchangeable code code' := by
  have hFits := ((composed_emitted g.context).store hFound hConstant h).fitting
  have hFits' := ((composed_emitted g'.context).store (hRef ▸ hFound) hConstant h').fitting
  have hSettled := storeCode_settled hMode h
  cases storeCode_parts h with
  | read hReads =>
    cases storeCode_parts h' with
    | read => exact hSettled.interchangeable hFits
    | computed hReads' => cases hReads.symm.trans hReads'
  | computed hReads hMade =>
    cases storeCode_parts h' with
    | read hReads' => cases hReads.symm.trans hReads'
    | computed _ hMade' =>
      exact (exprCode_twins hRef hCalls hMade hMade').store hMode
        (hFits _ (mem_append_right _ mem_cons_self))
        (hFits' _ (mem_append_right _ mem_cons_self))

theorem assign_interchangeable {line : Int} {g₁ g₁' : Generator}
    (hTable : g'.context.table = g.context.table)
    (hCalls : callsDefined value = false)
    (h : stmtCode g (.assign line (.name name) [] value) = .ok (code, g₁))
    (h' : stmtCode g' (.assign line (.name name) [] value) = .ok (code', g₁')) :
    Interchangeable code code' := by
  rw [stmtCode, located_eq_ok] at h h'
  have hPlain := assignCode_plain line h
  have hPlain' := assignCode_plain line h'
  cases hPlain with
  | elided hFound hSpecial =>
    cases hPlain' with
    | elided =>
      have hNone : Settled unknown [] := trivial
      exact hNone.interchangeable nofun
    | stored hFound' hSpecial' =>
      rw [hRef] at hFound'
      rw [hTable] at hSpecial'
      cases hFound.symm.trans hFound'
      cases hSpecial.symm.trans hSpecial'
  | stored hFound hSpecial hConstant hMode hCode =>
    cases hPlain' with
    | elided hFound' hSpecial' =>
      rw [hRef] at hFound'
      rw [hTable] at hSpecial'
      cases hFound.symm.trans hFound'
      cases hSpecial.symm.trans hSpecial'
    | stored hFound' _ _ _ hCode' =>
      rw [hRef] at hFound'
      cases hFound.symm.trans hFound'
      exact storeCode_interchangeable hRef hFound hConstant hMode hCalls hCode hCode'

end

variable {slot : Int64}

/- An argument is a name, or an expression without calls. -/
theorem argsCode_single (h : argsCode ctx slot [arg] = .ok code) :
    (∃ id, nameOf? arg = some id ∧ ctx.nameArgument slot id = .ok code) ∨
      nameOf? arg = none ∧ hasCall arg = false ∧ ∃ made, exprCode ctx .a arg = .ok made ∧
          code = made ++ [Context.storeAt slot] := by
  rw [argsCode] at h
  split at h
  · next id hName =>
    rcases seq h with ⟨_, hFirst, h₁⟩
    cases h₁
    rw [append_nil]
    exact .inl ⟨id, hName, hFirst⟩
  · next hName =>
    split at h
    · cases h
    · next hCall =>
      rcases seq h with ⟨_, hFirst, h₁⟩
      cases h₁
      rcases map_eq_ok.mp hFirst with ⟨made, hMade, rfl⟩
      rw [append_nil]
      exact .inr ⟨hName, Bool.eq_false_iff.mpr hCall, made, hMade, rfl⟩

variable (hRef : ctx'.reference = ctx.reference)
include hRef

/- The same branch is taken for the comparison in either register. -/
theorem condition_interchangeable
    (h : ctx.conditionCode label exit test = .ok code)
    (h' : ctx'.conditionCode label exit test = .ok code') :
    Interchangeable code code' := by
  rcases conditionCode_parts h with
    ⟨_, op, _, _, _, first, second, rfl, hLeft,
      hRight, hFirst, hSecond, rfl⟩
  rcases conditionCode_parts h' with
    ⟨_, _, _, _, _, _, _, hTest, hLeft', hRight', hFirst', hSecond', rfl⟩
  cases hTest
  cases hLeft.symm.trans hLeft'
  cases hRight.symm.trans hRight'
  rw [operandCode_congr hRef] at hFirst' hSecond'
  have hTwin := (twin_load hFirst hFirst').append
    (by simp [Register.operations]) isRead_compare hSecond hSecond'
  have hBranch : Settled unknown [.jump (exitBranch op) exit] := by
    cases op <;> exact settled_idle (by decide) (by decide) rfl
  have hFits : ∀ i ∈ [Instruction.jump (exitBranch op) exit], Fitting i :=
    forall_mem_singleton.mpr (.branch (exitBranch_form op).1 nofun)
  intro value m m' hAlike
  rcases hTwin value m m' hAlike with ⟨next, next', hNext, hNext', hPaired⟩
  have hLabel : ∀ {first second : Code} {m next : Machine},
      obeyAll value (first ++ second) m = (next, none) →
        obeyAll value (labelFirst label first ++ second) m = (next, none) := by
    intro first _ _ _ hDone
    cases first with
    | nil | cons => exact hDone
  rw [obeyAll_append (hLabel hNext), obeyAll_append (hLabel hNext')]
  exact hBranch.interchangeable hFits value next next' hPaired.alike

/- A variable as an argument: of an array the address is passed. -/
theorem nameArgument_interchangeable {id : String}
    (h : ctx.nameArgument slot id = .ok code)
    (h' : ctx'.nameArgument slot id = .ok code') :
    Interchangeable code code' := by
  have hSame :=
    (nameArgument_settled h).interchangeable ((joined_emitted ctx).nameArgument h).fitting
  have hFits : ∀ r : Register, Fitting (.of r.store (.number slot) .stackRelative) := by
    intro r
    cases r <;> exact .general rfl nofun rfl nofun
  unfold Context.nameArgument at h h'
  rw [hRef] at h'
  rcases seq h with ⟨ref, hFound, h₁⟩
  rcases seq h' with ⟨_, hFound', h₁'⟩
  cases hFound.symm.trans hFound'
  by_cases hMode : ref.mode.isIndexed = true
  · have hEq : code' = code := by
      cases hCase : ref.mode <;> rw [hCase] at hMode h₁ h₁' <;>
        first | (cases h₁; cases h₁'; rfl) | cases hMode
    rw [hEq]
    exact hSame
  · have hLoad : ∀ r : Register, ctx.operandCode Register.load r (.name id) =
          .ok [.of r.load (.symbol ref.target) ref.mode] :=
      fun r => bind_eq_ok.mpr ⟨ref, hFound, if_neg hMode⟩
    have hStored := (twin_load (hLoad (ctx.registerFor id))
      (hLoad (ctx'.registerFor id))).store rfl (hFits _) (hFits _)
    cases hCase : ref.mode <;> rw [hCase] at hMode h₁ h₁' hStored <;>
      first | cases hMode rfl | (cases h₁; cases h₁'; exact hStored)

theorem argument_interchangeable
    (h : argsCode ctx slot [arg] = .ok code)
    (h' : argsCode ctx' slot [arg] = .ok code') :
    Interchangeable code code' := by
  have hFits : Fitting (.of .stwa (.number slot) .stackRelative) := .general rfl nofun rfl nofun
  rcases argsCode_single h with ⟨_, hName, hCode⟩ | ⟨hName, hCall, _, hMade, rfl⟩
  · rcases argsCode_single h' with ⟨_, hName', hCode'⟩ | ⟨hName', _⟩
    · cases hName.symm.trans hName'
      exact nameArgument_interchangeable hRef hCode hCode'
    · cases hName.symm.trans hName'
  · rcases argsCode_single h' with ⟨_, hName', _⟩ | ⟨_, _, _, hMade', rfl⟩
    · cases hName.symm.trans hName'
    · have hTwin := exprCode_twins hRef (callsDefined_of_hasCall hCall) hMade hMade'
      rw [resultRegister_a] at hTwin
      exact hTwin.store rfl hFits hFits

end Statements

/- The same state, with other names that index. -/
def Generator.withSlicing (g : Generator) (names : List String) : Generator :=
  { g with
    slicing := names
    inside := g.inside.map fun f => { f with sig := { f.sig with slicing := names } } }

theorem withSlicing_sight
    (g : Generator)
    (s t : List String) :
    (g.withSlicing t).context.reference = (g.withSlicing s).context.reference ∧
      (g.withSlicing t).context.table = (g.withSlicing s).context.table := by
  unfold Generator.withSlicing Generator.context
  cases g.inside with
  | none | some => exact ⟨rfl, rfl⟩

theorem Trace.subset (h : Trace code k trace) :
    ∀ i ∈ trace, i ∈ code := by
  induction h with
  | nil => nofun
  | last hAt => exact forall_mem_singleton.mpr (mem_of_getElem? hAt)
  | cons hAt _ _ ih => exact forall_mem_cons.mpr ⟨mem_of_getElem? hAt, ih⟩

/-
  A statement reads no register before it has written it,
  wherever it is entered and whichever way is taken in it.
-/
theorem stmtCode_settled {g g' : Generator} {stmt : Stmt}
    (h : stmtCode g stmt = .ok (code, g'))
    (hEnters : Enters code k)
    (hTrace : Trace code k trace) :
    Settled unknown trace ∧ Interchangeable trace trace := by
  have hEmits := stmtCode_emits stmt h (.nil g')
  rw [append_nil] at hEmits
  have hTargets : ∀ i ∈ code, ∀ target, i.jumpsTo? = some target → target ≠ "" := by
    intro i hI _ hJump
    rcases Instruction.jumpsTo?_eq_some hJump with ⟨m, hOp, hOperand, hForm, hCall⟩
    rcases hEmits.jumpsWithin i hI m hOp hForm hCall with ⟨_, hLabel, hSame⟩
    cases hOperand.symm.trans hSame
    exact (mem_labels.mp hLabel).1
  have hSettled : Settled unknown trace := by
    refine hTrace.settled (hEmits.assembled assembled_settled) hTargets ?_
    intro _ hAt hLabel _ hKnown
    rcases hEnters with rfl | ⟨_, hJ, hSome⟩
    · exact hKnown
    · cases hAt.symm.trans hJ
      exact absurd hLabel hSome
  refine ⟨hSettled, hSettled.interchangeable fun i hI => ?_⟩
  exact hEmits.assembled assembled_fitting i (hTrace.subset i hI)

/-
  Which names index makes no difference that can be seen. The
  code of an assignment to a variable, of a condition and of an
  argument has the same outcome either way but for registers,
  and so has every statement behind it.
-/
theorem registers_interchangeable
    (g : Generator)
    (s t : List String) :
    (∀ line name value code code' g₁ g₁', callsDefined value = false →
        stmtCode (g.withSlicing s) (.assign line (.name name) [] value) = .ok (code, g₁) →
        stmtCode (g.withSlicing t) (.assign line (.name name) [] value) = .ok (code', g₁') →
          Interchangeable code code') ∧
      (∀ label exit test code code',
        (g.withSlicing s).context.conditionCode label exit test = .ok code →
        (g.withSlicing t).context.conditionCode label exit test = .ok code' →
          Interchangeable code code') ∧
      (∀ slot arg code code',
        argsCode (g.withSlicing s).context slot [arg] = .ok code →
        argsCode (g.withSlicing t).context slot [arg] = .ok code' →
          Interchangeable code code') ∧
      ∀ stmt code g₁ k trace, stmtCode g stmt = .ok (code, g₁) →
        Enters code k → Trace code k trace →
          Settled unknown trace ∧ Interchangeable trace trace := by
  rcases withSlicing_sight g s t with ⟨hRef, hTable⟩
  refine ⟨?_, ?_, ?_, ?_⟩
  · intro _ _ _ _ _ _ _ hCalls h h'
    exact assign_interchangeable hRef hTable hCalls h h'
  · intro _ _ _ _ _ h h'
    exact condition_interchangeable hRef h h'
  · intro _ _ _ _ h h'
    exact argument_interchangeable hRef h h'
  · intro _ _ _ _ _ h hEnters hTrace
    exact stmtCode_settled h hEnters hTrace

/- Two numbers and an array, at the top level. -/
def atTopLevel : Generator where
  usual := 2
  table := numbersAndArray.table
  slicing := []
  inside := none
  functions := []
  frames := []
  arrays := numbersAndArray.arrays
  loops := 0
  conds := 0
  landings := 0

/-
  `i = i + n`, `i < n` and `i` as an argument. Where `i` indexes
  all this is done in the index register.
-/
theorem registers_interchangeable_sum :
    Interchangeable
        [.of .ldwa (.symbol "i") .direct, .of .adda (.symbol "n") .direct,
          .of .stwa (.symbol "i") .direct]
        [.of .ldwx (.symbol "i") .direct, .of .addx (.symbol "n") .direct,
          .of .stwx (.symbol "i") .direct] ∧
      Interchangeable
        [(Instruction.of .ldwa (.symbol "i") .direct).labelled "wh_0",
          .of .cpwa (.symbol "n") .direct, .jump .brge "ew_0"]
        [(Instruction.of .ldwx (.symbol "i") .direct).labelled "wh_0",
          .of .cpwx (.symbol "n") .direct, .jump .brge "ew_0"] ∧
      Interchangeable
        [.of .ldwa (.symbol "i") .direct, .of .stwa (.number (-2)) .stackRelative]
        [.of .ldwx (.symbol "i") .direct, .of .stwx (.number (-2)) .stackRelative] ∧
      Settled unknown
        [.of .ldwa (.symbol "i") .direct, .of .adda (.symbol "n") .direct] := by
  rcases registers_interchangeable atTopLevel [] ["i"] with ⟨hAssign, hTest, hArgument, hStmt⟩
  have hSum : callsDefined (.arith .add (.name "i") (.name "n")) = false := rfl
  refine ⟨hAssign 1 "i" _ _ _ _ _ hSum rfl rfl, hTest "wh_0" "ew_0"
      (.compare (.name "i") (.last .less (.name "n"))) _ _ rfl rfl,
    hArgument (-2) (.name "i") _ _ rfl rfl, ?_⟩
  refine (hStmt (.assign 1 (.name "i") [] (.arith .add (.name "i") (.name "n"))) _ _ 0 _
    rfl (.inl rfl) ?_).1
  exact .cons rfl (.next rfl rfl) (.last rfl)

end Compile

end Pep9
