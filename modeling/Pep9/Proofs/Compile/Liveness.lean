import Pep9.Proofs.Compile.ControlFlow
import Pep9.Proofs.Compile.Registers

/-
  Registers between statements. The code of a statement reads
  a register only where it has written it before, on every path
  and from every label on. So two states that differ in nothing
  but registers stay so while a statement is carried out.

  Key theorems: `Settled.alike`, `Trace.settled`,
  `exprCases_settled`, `Emits.assembled`.
-/

namespace Pep9

open List
open Isa (Mnemonic)
open Listing (Instruction Mode)
open Script (Expr Stmt)

namespace Compile

/-
  The registers that are known behind an instruction. At a
  label nothing is known, and nothing of what was known before
  a call is known behind it.
-/
def knownBehind (known : Register → Prop) (i : Instruction) : Register → Prop :=
  fun r =>
    i.writes r = true ∨ i.label = "" ∧ i.op ≠ .known .call ∧ known r

/-
  Code that reads no register but those that are known. It may
  come to a label from anywhere.
-/
def Settled (known : Register → Prop) : Code → Prop
  | [] => True
  | i :: rest =>
    (∀ r, i.reads r = true → i.label = "" ∧ known r) ∧ Settled (knownBehind known i) rest

def unknown : Register → Prop := fun _ => False

section Settled

variable {known other : Register → Prop} {first second code : Code} {i : Instruction}

theorem knownBehind_mono
    (h : ∀ r, known r → other r)
    (r : Register)
    (hR : knownBehind known i r) :
    knownBehind other i r := hR.imp_right fun ⟨hLabel, hCall, hKnown⟩ => ⟨hLabel, hCall, h r hKnown⟩

theorem Settled.mono
    (h : Settled known code)
    (hKnown : ∀ r, known r → other r) :
    Settled other code := by
  induction code generalizing known other with
  | nil => trivial
  | cons _ _ ih =>
    refine ⟨fun r hR => (h.1 r hR).imp_right (hKnown r), ?_⟩
    exact ih h.2 (knownBehind_mono hKnown)

theorem settled_append :
    Settled known (first ++ second) ↔ Settled known first ∧
        Settled (first.foldl knownBehind known) second := by
  induction first generalizing known with
  | nil => simp [Settled]
  | cons _ _ ih => rw [cons_append, Settled, Settled, ih, foldl_cons, and_assoc]

/- Pieces that need nothing make code that needs nothing. -/
theorem Settled.append
    (hFirst : Settled known first)
    (hSecond : Settled unknown second) :
    Settled known (first ++ second) := settled_append.mpr ⟨hFirst, hSecond.mono fun _ h => h.elim⟩

/-
  States that are alike as far as registers are known stay so
  while such code is carried out.
-/
theorem Settled.alike
    (value : String → UInt16)
    {m m' : Machine}
    (h : Settled known code)
    (hFitting : ∀ i ∈ code, Fitting i)
    (hAlike : Machine.Alike known m m') :
    (Machine.obeyAll value code m').2 =
        (Machine.obeyAll value code m).2 ∧ Machine.Alike (fun r =>
          (Machine.obeyAll value code m).2 = none ∧ code.foldl knownBehind known r)
        (Machine.obeyAll value code m).1
        (Machine.obeyAll value code m').1 := by
  induction code generalizing known m m' with
  | nil => exact ⟨rfl, hAlike.mono fun r hR => hR.2⟩
  | cons i _ ih =>
    rcases Machine.obey_alike value hAlike
      (hFitting i mem_cons_self) (fun r hR => (h.1 r hR).2) with ⟨hFault, hNext⟩
    rw [Machine.obeyAll, Machine.obeyAll]
    generalize m.obey value i = out at hFault hNext ⊢
    generalize m'.obey value i = out' at hFault hNext ⊢
    rcases out with ⟨_, fault⟩
    rcases out' with ⟨_, _⟩
    cases hFault
    cases fault with
    | some =>
      refine ⟨rfl, hNext.mono fun r hR => ?_⟩
      cases hR.1
    | none =>
      refine ih h.2 (fun j hJ => hFitting j (mem_cons_of_mem _ hJ)) (hNext.mono ?_)
      intro _ hR
      exact hR.elim .inr fun hKnown => .inl hKnown.2.2

end Settled

/-
  The instructions on a path through some code, from one of its
  places on.
-/
inductive Trace (code : Code) : Nat → Code → Prop where
  | nil {k : Nat} : Trace code k []
  | last {k : Nat} {i : Instruction} (hAt : code[k]? = some i) : Trace code k [i]
  | cons {k n : Nat} {i : Instruction} {rest : Code} (hAt : code[k]? = some i)
      (hGoes : Goes code k n) (hRest : Trace code n rest) : Trace code k (i :: rest)

/- The places where code is entered: its start and its labels. -/
def Enters (code : Code) (k : Nat) : Prop :=
  k = 0 ∨ ∃ i, code[k]? = some i ∧ i.label ≠ ""

theorem Settled.at {known : Register → Prop} {code : Code} {k : Nat}
    {i : Instruction}
    (h : Settled known code)
    (hAt : code[k]? = some i) :
    (∀ r, i.reads r = true →
        i.label = "" ∧ (code.take k).foldl knownBehind known r) ∧
      (code.take (k + 1)).foldl knownBehind known =
        knownBehind ((code.take k).foldl knownBehind known) i := by
  rcases List.getElem?_eq_some_iff.mp hAt with ⟨hK, hI⟩
  rw [← take_append_drop k code, settled_append, drop_eq_getElem_cons hK, hI] at h
  refine ⟨h.2.1, ?_⟩
  rw [take_add_one, hAt, foldl_append]
  rfl

/-
  Along a path through settled code no more has to be known than
  where the path starts. Every branch leads to a label.
-/
theorem Trace.settled {code trace : Code} {k : Nat} {known : Register → Prop}
    (h : Trace code k trace)
    (hCode : Settled unknown code)
    (hTargets :
      ∀ i ∈ code, ∀ target, i.jumpsTo? = some target → target ≠ "")
    (hKnown :
      ∀ i, code[k]? = some i → i.label = "" →
        ∀ r, (code.take k).foldl knownBehind unknown r → known r) :
    Settled known trace := by
  induction h generalizing known with
  | nil => trivial
  | last hAt =>
    refine ⟨fun r hR => ?_, trivial⟩
    rcases (hCode.at hAt).1 r hR with ⟨hLabel, hHere⟩
    exact ⟨hLabel, hKnown _ hAt hLabel r hHere⟩
  | @cons _ _ i _ hAt hGoes _ ih =>
    refine ⟨fun r hR => ?_, ih ?_⟩
    · rcases (hCode.at hAt).1 r hR with ⟨hLabel, hHere⟩
      exact ⟨hLabel, hKnown _ hAt hLabel r hHere⟩
    · intro _ hJ hLabel r hThere
      cases hGoes with
      | next =>
        rw [(hCode.at hAt).2] at hThere
        exact hThere.imp_right fun ⟨hHere, hCall, hOld⟩ => ⟨hHere, hCall, hKnown i hAt hHere r hOld⟩
      | branch hAt' hJump hGoal hTarget =>
        cases hJ.symm.trans hGoal
        cases hAt.symm.trans hAt'
        refine absurd ?_ (hTargets i (mem_of_getElem? hAt) _ hJump)
        exact hTarget.symm.trans hLabel

def Leaves (code : Code) (r : Register) : Prop :=
  ∀ known, code.foldl knownBehind known r

variable {position : Expr}

section Pieces

variable {known : Register → Prop} {first second code : Code} {m : Mnemonic}
  {operand : Listing.Operand} {mode : Mode} {r : Register} {ctx : Context}

theorem settled_of
    (hA : m ∈ Register.readers .a → known .a)
    (hX : m ∈ Register.readers .x ∨ mode.isIndexed = true → known .x) :
    Settled known [.of m operand mode] := by
  refine ⟨fun s hS => ⟨rfl, ?_⟩, trivial⟩
  rcases (Instruction.reads_iff rfl).mp hS with hMem | ⟨rfl, hIndexed⟩
  · cases s with
    | a => exact hA hMem
    | x => exact hX (.inl hMem)
  · exact hX (.inr hIndexed)

theorem settled_idle
    (hA : m ∉ Register.readers .a)
    (hX : m ∉ Register.readers .x)
    (hMode : mode.isIndexed = false) :
    Settled known [.of m operand mode] := by
  refine settled_of (fun h => absurd h hA) ?_
  rintro (hMem | hIndexed)
  · exact absurd hMem hX
  · exact absurd hIndexed (Bool.eq_false_iff.mp hMode)

theorem leaves_of (h : m ∈ r.writers) : Leaves [.of m operand mode] r :=
  fun _ => .inl ((Instruction.writes_iff rfl).mpr h)

theorem Leaves.append (h : Leaves second r) : Leaves (first ++ second) r := by
  intro _
  rw [foldl_append]
  exact h _

theorem Leaves.cons {i : Instruction}
    (h : Leaves code r) :
    Leaves (i :: code) r :=
  fun known => h (knownBehind known i)

/- An instruction other than a call leaves what was known. -/
theorem knownBehind_of
    (hCall : m ≠ .call)
    (h : known r) :
    knownBehind known (.of m operand mode) r :=
  .inr ⟨rfl, fun hOp => hCall (Listing.Operation.known.inj hOp), h⟩

theorem settled_adjustStack
    (hA : m ∉ Register.readers .a)
    (hX : m ∉ Register.readers .x)
    (bytes : Int64) :
    Settled known (adjustStack m bytes) := by
  unfold adjustStack
  split
  · exact settled_idle hA hX rfl
  · trivial

theorem indexCode_settled (h : ctx.indexCode position = .ok code) :
    Settled unknown code ∧ Leaves code .x ∧
      ∀ known r, known r → code.foldl knownBehind known r := by
  rcases indexCode_parts h with ⟨_, operand, mode, _, hDirect, rfl⟩
  have hLoad : Settled unknown [.of .ldwx operand mode] :=
    settled_idle (by decide) (by decide) hDirect.plain
  have hScale : Settled (knownBehind unknown (.of .ldwx operand mode)) [Context.scale] :=
    settled_of (fun hRead => absurd hRead (by decide)) fun _ => leaves_of (by decide) unknown
  refine ⟨settled_append.mpr ⟨hLoad, hScale⟩, ?_, ?_⟩
  · exact (leaves_of (by decide)).cons
  · intro _ _ hKnown
    exact knownBehind_of (by decide) (knownBehind_of (by decide) hKnown)

/- Only its own register is read by an instruction of a register. -/
def OwnReads (op : Register → Mnemonic) : Prop :=
  ∀ r s : Register, op r ∈ s.readers → s = r

theorem operandCode_settled {op : Register → Mnemonic} {operand : Simple}
    (hOwn : OwnReads op)
    (hKnown : op r ∈ r.readers → known r)
    (h : ctx.operandCode op r operand = .ok code) :
    Settled known code := by
  cases operandCode_parts h with
  | direct hDirect =>
    have hReads : ∀ s : Register, op r ∈ s.readers → known s := by
      intro s hS
      obtain rfl := hOwn r s hS
      exact hKnown hS
    refine settled_of (hReads .a) ?_
    rintro (hMem | hIndexed)
    · exact hReads .x hMem
    · exact absurd hIndexed (Bool.eq_false_iff.mp hDirect.plain)
  | element hOnly _ hOffset =>
    subst hOnly
    rcases indexCode_settled hOffset with ⟨hSettled, hIndex, hKept⟩
    refine settled_append.mpr ⟨hSettled.mono fun _ h => h.elim, ?_⟩
    exact settled_of (fun hMem => hKept _ _ (hKnown hMem)) fun _ => hIndex _

theorem operandCode_leaves {op : Register → Mnemonic} {operand : Simple}
    (hWrites : op r ∈ r.writers)
    (h : ctx.operandCode op r operand = .ok code) :
    Leaves code r := by
  cases operandCode_parts h with
  | direct => exact leaves_of hWrites
  | element hOnly =>
    subst hOnly
    exact (leaves_of hWrites).append

theorem ownReads_load : OwnReads Register.load := by
  intro r s h
  cases r <;> cases s <;> exact absurd h (by decide)

theorem ownReads_compare : OwnReads Register.compare := by
  intro r s h
  cases r <;> cases s <;> first | rfl | exact absurd h (by decide)

theorem ownReads_arith {op : Script.Arith} {apply : Register → Mnemonic}
    (hOp : arithOp? op = some apply) :
    OwnReads apply ∧ ∀ r, apply r ∈ r.writers := by
  cases op <;> cases hOp <;> constructor
  all_goals intro r
  · intro s h
    cases r <;> cases s <;> first | rfl | exact absurd h (by decide)
  · cases r <;> decide
  · intro s h
    cases r <;> cases s <;> first | rfl | exact absurd h (by decide)
  · cases r <;> decide

theorem load_settled {operand : Simple}
    (h : ctx.operandCode Register.load r operand = .ok code) :
    Settled unknown code ∧ Leaves code r := by
  refine ⟨operandCode_settled ownReads_load ?_ h, operandCode_leaves ?_ h⟩
  · cases r <;> exact fun hMem => absurd hMem (by decide)
  · cases r <;> decide

theorem settled_store
    (hKnown : known r)
    (hMode : mode.isIndexed = false) :
    Settled known [.of r.store operand mode] := by
  have hIndexed : mode.isIndexed ≠ true := Bool.eq_false_iff.mp hMode
  cases r with
  | a =>
    refine settled_of (fun _ => hKnown) ?_
    rintro (hMem | hX)
    · exact absurd hMem (by decide)
    · exact absurd hX hIndexed
  | x => exact settled_of (fun hMem => absurd hMem (by decide)) fun _ => hKnown

variable (code) in
theorem Leaves.store
    (hSettled : Settled known code)
    (hLeaves : Leaves code r)
    (hMode : mode.isIndexed = false) :
    Settled known (code ++ [.of r.store operand mode]) :=
  settled_append.mpr ⟨hSettled, settled_store (hLeaves known) hMode⟩

------------------------------------------------------------
-- Calls
------------------------------------------------------------

theorem nameArgument_settled {slot : Int64} {id : String}
    (h : ctx.nameArgument slot id = .ok code) :
    Settled unknown code := by
  have hLoad : ∀ (r : Register) (operand : Listing.Operand) (mode : Mode), mode.isIndexed = false →
          Settled unknown [.of r.load operand mode, .of r.store (.number slot) .stackRelative] := by
    intro r _ _ hMode
    refine Leaves.store [_] ?_ (leaves_of ?_) rfl
    · cases r <;> exact settled_idle (by decide) (by decide) hMode
    · cases r <;> decide
  cases nameArgument_parts h with
  | base | pointer => exact hLoad .a _ _ rfl
  | @offset ref =>
    have hMove : Settled unknown [.plain .movspa] := settled_idle (by decide) (by decide) rfl
    have hAdd : Settled (knownBehind unknown (.plain .movspa))
          [.of .adda (.symbol ref.target) .immediate] := by
      refine settled_of (fun _ => leaves_of (by decide) unknown) ?_
      rintro (hMem | hIndexed)
      · exact absurd hMem (by decide)
      · cases hIndexed
    refine Leaves.store (r := .a) [_, _] (settled_append.mpr ⟨hMove, hAdd⟩) ?_ rfl
    exact (leaves_of (by decide)).cons
  | word _ _ hPlain => exact hLoad _ _ _ hPlain

/- Behind a call, the value returned is loaded. -/
theorem transfer_settled (callee : Callee) :
    Settled unknown callee.transfer ∧
      (callee.sig.hasReturn = true → Leaves callee.transfer .a) := by
  have hSub : ∀ bytes, Settled unknown (adjustStack .subsp bytes) :=
    settled_adjustStack (by decide) (by decide)
  have hAdd : ∀ bytes, Settled unknown (adjustStack .addsp bytes) :=
    settled_adjustStack (by decide) (by decide)
  have hCall : Settled unknown [.jump .call callee.label] :=
    settled_idle (by decide) (by decide) rfl
  have hLoad : Settled unknown [.of .ldwa (.number 0) .stackRelative] :=
    settled_idle (by decide) (by decide) rfl
  unfold Callee.transfer
  dsimp only
  refine ⟨?_, ?_⟩
  · refine ((hSub _).append hCall).append ?_
    split
    · exact ((hAdd _).append hLoad).append (hAdd _)
    · exact hAdd _
  · intro hReturn
    rw [if_pos hReturn]
    refine Leaves.append fun known => ?_
    rw [foldl_append]
    have hValue : Leaves (adjustStack .addsp (callee.sig.argBytes - 2) ++
            [.of .ldwa (.number 0) .stackRelative])
          .a :=
      Leaves.append (leaves_of (by decide))
    exact knownBehind_of (m := .addsp) (by decide) (hValue known)

/- A call whose value is used has one. -/
theorem hasReturn_of_checkReturns {function : String} {given : Nat}
    {callee : Callee}
    (hReturns : ctx.checkReturns function = .ok ())
    (hCallee : ctx.callee function given = .ok callee) :
    callee.sig.hasReturn = true := by
  unfold Context.checkReturns at hReturns
  unfold Context.callee at hCallee
  cases hFound : ctx.signature? function with
  | none =>
    rw [hFound] at hCallee
    cases hCallee
  | some sig =>
    rw [hFound] at hReturns hCallee
    rcases Result.seq hCallee with ⟨_, _, hDone⟩
    split at hDone
    · cases hDone
      by_cases hValue : sig.hasReturn = true
      · exact hValue
      · simp only [if_neg hValue] at hReturns
        cases hReturns
    · cases hDone

theorem exprCases_settled (ctx : Context) :
    ExprCases ctx
      (fun r e code => Settled unknown code ∧ Leaves code (resultRegister e r))
      (fun _ _ code => Settled unknown code) where
  literal := load_settled
  name := load_settled
  element := load_settled
  arith := by
    intro _ _ _ _ _ _ _ _ hOp _ hFirst hSecond
    rcases hFirst with ⟨hSettled, hLeaves⟩
    rw [resultRegister_left] at hLeaves
    rcases ownReads_arith hOp with ⟨hOwn, hWrites⟩
    refine ⟨settled_append.mpr ⟨hSettled, ?_⟩, (operandCode_leaves (hWrites _) hSecond).append⟩
    exact operandCode_settled hOwn (fun _ => hLeaves unknown) hSecond
  int := by
    intro _ _ _ hArg
    rw [resultRegister_a] at hArg
    exact hArg
  call := by
    intro _ _ _ callee _ _ hReturns hCallee _ hStores
    rcases transfer_settled callee with ⟨hTransfer, hValue⟩
    exact ⟨hStores.append hTransfer, (hValue (hasReturn_of_checkReturns hReturns hCallee)).append⟩
  noArgs := trivial
  nameArg := fun hFirst hOthers => (nameArgument_settled hFirst).append hOthers
  valueArg := by
    intro _ _ _ _ _ _ hFirst hOthers
    rw [resultRegister_a] at hFirst
    exact (Leaves.store _ hFirst.1 hFirst.2 rfl).append hOthers

end Pieces

section Statements

variable {g g' : Generator} {code : Code} {ctx : Context}

theorem exprCode_settled {r : Register} {e : Expr}
    (h : exprCode ctx r e = .ok code) :
    Settled unknown code ∧ Leaves code (resultRegister e r) :=
  (exprCases_settled ctx).expr h

variable {value : Expr}

theorem storeCode_settled {name : String} {ref : Reference}
    (hMode : ref.mode.isIndexed = false)
    (h : g.storeCode name ref value = .ok code) :
    Settled unknown code := by
  cases storeCode_parts h with
  | read => exact settled_idle (by decide) (by decide) hMode
  | computed _ hMade =>
    rcases exprCode_settled hMade with ⟨hSettled, hLeaves⟩
    exact Leaves.store _ hSettled hLeaves hMode

/- An element is read or printed behind the code of its offset. -/
theorem indexed_settled {m : Mnemonic} {offset : Code}
    {operand : Listing.Operand} {mode : Mode}
    (hIdle : m ∉ Register.a.readers)
    (h : ctx.indexCode position = .ok offset) :
    Settled unknown (offset ++ [.of m operand mode]) := by
  rcases indexCode_settled h with ⟨hSettled, hIndex, _⟩
  exact settled_append.mpr ⟨hSettled, settled_of (absurd · hIdle) fun _ => hIndex _⟩

theorem assignElement_settled {base : Expr}
    (h : g.assignElement base position value = .ok code) :
    Settled unknown code := by
  rcases assignElement_eq_ok h with ⟨_, _, _, hOffset, ⟨_, rfl⟩ | ⟨_, _, hMade, rfl⟩⟩
  · exact indexed_settled (by decide) hOffset
  · rcases exprCode_settled hMade with ⟨hSettled, hLeaves⟩
    rw [resultRegister_a] at hLeaves
    rcases indexCode_settled hOffset with ⟨hOffsets, hIndex, hKept⟩
    refine settled_append.mpr ⟨hSettled.append hOffsets, ?_⟩
    rw [foldl_append]
    exact settled_of (fun _ => hKept _ _ (hLeaves unknown)) fun _ => hIndex _

theorem PrintParts.settled (h : PrintParts g value code) :
    Settled unknown code := by
  cases h with
  | direct _ hDirect => exact settled_idle (by decide) (by decide) hDirect.plain
  | element _ hOffset => exact indexed_settled (by decide) hOffset
  | @computed _ made hMade =>
    rcases exprCode_settled hMade with ⟨hSettled, hLeaves⟩
    rw [resultRegister_a] at hLeaves
    have hShown : Settled unknown [.of .deco Generator.scratch .stackRelative] :=
      settled_idle (by decide) (by decide) rfl
    have hStored : Settled unknown (made ++ [.of .stwa Generator.scratch .stackRelative]) :=
      Leaves.store _ hSettled hLeaves rfl
    have hBoth := hStored.append hShown
    rwa [append_assoc] at hBoth

theorem exprStmtCode_settled (h : g.exprStmtCode value = .ok code) :
    Settled unknown code := by
  cases exprStmtCode_parts h with
  | print hParts => exact hParts.settled
  | exit => exact settled_idle (by decide) (by decide) rfl
  | builtin _ hMade => exact (exprCode_settled hMade).1
  | call _ _ _ hMade =>
    rcases Result.seq hMade with ⟨callee, _, h₁⟩
    rcases Result.seq h₁ with ⟨_, hStores, hDone⟩
    cases hDone
    exact ((exprCases_settled _).args hStores).append (transfer_settled callee).1

theorem returnCode_settled {value : Option Expr}
    (h : g.returnCode value = .ok code) :
    Settled unknown code := by
  rcases returnCode_parts h with ⟨f, _, _, _, hParts⟩
  have hLeave : Settled unknown (adjustStack .addsp f.sig.localsSize ++ [.plain .ret]) :=
    (settled_adjustStack (by decide) (by decide) _).append
      (settled_idle (by decide) (by decide) rfl)
  cases hParts with
  | none => exact hLeave
  | some hMade =>
    rcases exprCode_settled hMade with ⟨hSettled, hLeaves⟩
    rw [resultRegister_a] at hLeaves
    rw [Signature.leaving, storeValue, append_assoc, ← append_assoc]
    exact (Leaves.store _ hSettled hLeaves rfl).append hLeave

theorem Plain.settled {stmt : Stmt}
    (h : Plain g stmt code g') :
    Settled unknown code := by
  cases h with
  | pass | elided => trivial
  | stored _ _ _ hMode hCode => exact storeCode_settled hMode hCode
  | element hCode => exact assignElement_settled hCode
  | expr hCode => exact exprStmtCode_settled hCode
  | ret hCode => exact returnCode_settled hCode

theorem knownBehind_labelled
    (label : String)
    (i : Instruction) :
    knownBehind unknown (i.labelled label) = knownBehind unknown i := by
  funext r
  simp only [knownBehind, unknown, and_false, or_false]
  rfl

/- A label changes nothing where nothing has to be known. -/
theorem settled_labelFirst
    (label : String)
    (h : Settled unknown code) :
    Settled unknown (labelFirst label code) ∧ (labelFirst label code).foldl knownBehind unknown =
        code.foldl knownBehind unknown := by
  cases code with
  | nil => exact ⟨trivial, rfl⟩
  | cons =>
    rw [labelFirst, Settled, foldl_cons, foldl_cons, knownBehind_labelled]
    exact ⟨⟨fun r hR => (h.1 r hR).2.elim, h.2⟩, rfl⟩

theorem conditionCode_settled {label exit : String} {test : Expr}
    (h : ctx.conditionCode label exit test = .ok code) :
    Settled unknown code := by
  rcases conditionCode_parts h with ⟨parts⟩
  rcases load_settled parts.first_eq with ⟨hFirst, hLeaves⟩
  rcases settled_labelFirst label hFirst with ⟨hLabelled, hSame⟩
  rw [parts.code_eq]
  refine Settled.append (settled_append.mpr ⟨hLabelled, ?_⟩) ?_
  · rw [hSame]
    exact operandCode_settled ownReads_compare (fun _ => hLeaves unknown) parts.second_eq
  · cases parts.op <;> exact settled_idle (by decide) (by decide) rfl

/- A property of plain statements, of conditions and of what is joined. -/
structure Assembled (P : Code → Prop) : Prop where
  nil : P []
  append : ∀ {first second}, P first → P second → P (first ++ second)
  plain : ∀ {g g' stmt code}, Plain g stmt code g' → P code
  condition : ∀ {ctx : Context} {label exit test code},
      ctx.conditionCode label exit test = .ok code → P code
  jump : ∀ target, P [.jump .br target]
  mark : ∀ label, P [mark label]
  adjust : ∀ {m}, m = .subsp ∨ m = .addsp → ∀ bytes, P (adjustStack m bytes)
  ret : P [.plain .ret]

theorem Emits.assembled {P : Code → Prop} {stmts : List Stmt}
    (hP : Assembled P)
    (h : Emits g stmts code g') :
    P code := by
  have hEnd : ∀ target label, P [.jump .br target, Compile.mark label] :=
    fun target label => hP.append (hP.jump target) (hP.mark label)
  induction h with
  | nil => exact hP.nil
  | plain hFirst _ ih => exact hP.append (hP.plain hFirst) ih
  | guarded _ hTest _ _ ihBody ihRest =>
    refine hP.append (hP.append ?_ (hEnd _ _)) ihRest
    exact hP.append (hP.condition hTest) ihBody
  | condElse _ _ hTest _ _ _ ihBody ihOrElse ihRest =>
    refine hP.append (hP.append (hP.append ?_ ihOrElse) (hP.mark _)) ihRest
    exact hP.append (hP.append (hP.condition hTest) ihBody) (hEnd _ _)
  | @define _ _ _ _ _ _ _ _ _ _ _ _ _ _ _ ihBody ihRest =>
    refine hP.append ?_ ihRest
    unfold Generator.Entry.wrap
    refine hP.append (hP.append (hP.append (hP.append (hEnd _ _)
      (hP.adjust (.inl rfl) _)) ihBody) ?_) (hP.mark _)
    split
    · exact hP.nil
    · exact hP.append (hP.adjust (.inr rfl) _) hP.ret

/- No statement relies on what registers hold before it. -/
theorem assembled_settled : Assembled (Settled unknown) where
  nil := trivial
  append := Settled.append
  plain := Plain.settled
  condition := conditionCode_settled
  jump := fun _ => settled_idle (by decide) (by decide) rfl
  mark := by
    intro _
    refine ⟨fun r hR => ?_, trivial⟩
    cases r <;> cases hR
  adjust := by
    rintro m (rfl | rfl) bytes
    · exact settled_adjustStack (by decide) (by decide) bytes
    · exact settled_adjustStack (by decide) (by decide) bytes
  ret := settled_idle (by decide) (by decide) rfl

end Statements

end Compile

end Pep9
