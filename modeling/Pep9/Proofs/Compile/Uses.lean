import Pep9.Proofs.Compile.Pieces

/-
  What the instructions of generated code are. Every
  instruction at every place of the code of a statement is
  one of a few forms, and its operand comes from the symbols
  that were in sight when it was made.

  Key theorems: `Use.moved`, `uses_labelFirst`,
  `composed_emitted`, `conditionCode_uses`, `Plain.emitted`.
-/

namespace Pep9

open List
open Isa (Mnemonic)
open Listing (Instruction Mode)
open Script (Expr Stmt)

variable {first second : Code}

namespace Compile

variable {i : Instruction} {code : Code} {m : Mnemonic} {value position base : Expr} {g : Generator}

/-
  A property of an instruction between the code before and
  behind it holds at every place of some code.
-/
def Everywhere (Φ : Code → Instruction → Code → Prop) (code : Code) : Prop :=
  ∀ before i behind, code = before ++ i :: behind → Φ before i behind

/- A property that stays when there is more code around. -/
def Stable (Φ : Code → Instruction → Code → Prop) : Prop :=
  ∀ outer before i behind further, Φ before i behind → Φ (outer ++ before) i (behind ++ further)

namespace Everywhere

variable {Φ Ψ : Code → Instruction → Code → Prop}

theorem nil : Everywhere Φ [] := by
  intro before _ _ h
  cases before <;> cases h

theorem of_forall (h : ∀ i ∈ code, ∀ before behind, Φ before i behind) :
    Everywhere Φ code := by
  intro before i behind hEq
  refine h i ?_ before behind
  rw [hEq]
  exact mem_append_right _ mem_cons_self

theorem cons_of {rest : Code}
    (hFirst : Φ [] i rest)
    (hRest : Everywhere (fun before => Φ (i :: before)) rest) :
    Everywhere Φ (i :: rest) := by
  intro before _ behind hEq
  cases before with
  | nil =>
    cases hEq
    exact hFirst
  | cons _ more =>
    cases hEq
    exact hRest more _ behind rfl

theorem singleton (h : Φ [] i []) : Everywhere Φ [i] := .cons_of h .nil

theorem pair {j : Instruction}
    (hFirst : Φ [] i [j])
    (hSecond : Φ [i] j []) :
    Everywhere Φ [i, j] := .cons_of hFirst (.singleton hSecond)

/- A place of two pieces of code is a place of one of them. -/
theorem append_of
    (hFirst : Everywhere (fun before i behind => Φ before i (behind ++ second)) first)
    (hSecond : Everywhere (fun before => Φ (first ++ before)) second) :
    Everywhere Φ (first ++ second) := by
  intro before i behind hEq
  rcases append_eq_append_iff.mp hEq with ⟨more, hBefore, hRest⟩ | ⟨more, hPart, hRest⟩
  · rw [hBefore]
    exact hSecond more i behind hRest
  · cases more with
    | nil =>
      rw [append_nil] at hPart
      have hPlace : Φ (first ++ []) i behind := hSecond [] i behind hRest.symm
      rwa [append_nil, hPart] at hPlace
    | cons j inside =>
      rw [cons_append, List.cons.injEq] at hRest
      rw [hRest.1, hRest.2]
      exact hFirst before j inside hPart

theorem append
    (hStable : Stable Φ)
    (hFirst : Everywhere Φ first)
    (hSecond : Everywhere Φ second) :
    Everywhere Φ (first ++ second) := by
  refine append_of ?_ ?_
  · intro before i behind hEq
    exact hStable [] before i behind second (hFirst before i behind hEq)
  · intro before i behind hEq
    have hPlace := hStable first before i behind [] (hSecond before i behind hEq)
    rwa [append_nil] at hPlace

/- Code between two pieces, on which its places may depend. -/
theorem between {last : Code}
    (hStable : Stable Φ)
    (hFirst : Everywhere Φ first)
    (hCode : Everywhere (fun before i behind => Φ (first ++ before) i (behind ++ last)) code)
    (hLast : Everywhere Φ last) :
    Everywhere Φ (first ++ code ++ last) := by
  refine append_of ?_ ?_
  · refine append_of ?_ hCode
    intro before i behind hEq
    have hPlace := hStable [] before i behind (code ++ last) (hFirst before i behind hEq)
    rwa [nil_append, ← append_assoc] at hPlace
  · intro before i behind hEq
    have hPlace := hStable (first ++ code) before i behind [] (hLast before i behind hEq)
    rwa [append_nil] at hPlace

theorem cons
    (hStable : Stable Φ)
    (hFirst : Φ [] i [])
    (hRest : Everywhere Φ code) :
    Everywhere Φ (i :: code) :=
  append hStable (singleton hFirst) hRest

theorem mono
    (h : Everywhere Φ code)
    (hImp : ∀ before i behind, Φ before i behind → Ψ before i behind) :
    Everywhere Ψ code :=
  fun before i behind hEq => hImp _ _ _ (h before i behind hEq)

/- Every instruction of the code stands at some place. -/
theorem of_mem
    (h : Everywhere Φ code)
    (hMem : i ∈ code) :
    ∃ before behind, Φ before i behind := by
  rcases append_of_mem hMem with ⟨before, behind, hEq⟩
  exact ⟨before, behind, h before i behind hEq⟩

end Everywhere

/-
  The forms of an instruction, apart from branches. Numbers
  and names come from the context; the two forms in which the
  address of an array is computed tell what stands next to
  them.
-/
inductive Use (ctx : Context) : Code → Instruction → Code → Prop where
  | unary {before behind : Code} {label : String} {m : Mnemonic} (hForm : m.form = .unary) :
      Use ctx before ⟨label, .known m, .absent, .none⟩ behind
  | number {before behind : Code} {label : String} {m : Mnemonic} {value : Int64} {mode : Mode}
      (hForm : m.form = .general) (hMode : (mode = .immediate ∧ m.writesOperand = false) ∨
          mode = .stackRelative) : Use ctx before ⟨label, .known m, .number value, mode⟩ behind
  | read {before behind : Code} {label name : String} {m : Mnemonic} {ref : Reference}
      (hRead : IsRead m) (hRef : ctx.reference name = .ok ref) : Use ctx before
        ⟨label, .known m, .symbol ref.target, ref.mode⟩ behind
  | write {before behind : Code} {label name : String} {m : Mnemonic} {ref : Reference}
      (hForm : m.form = .general) (hRef : ctx.reference name = .ok ref)
      (hKept : isConstantName name = false ∨ ref.mode.isIndexed = true) : Use ctx before
        ⟨label, .known m, .symbol ref.target, ref.mode⟩ behind
  | returned {before behind : Code} {label slot : String} (hInside : ctx.function.isSome = true)
      (hSlot : ctx.table.dataTarget returnSource = .ok slot) : Use ctx before
        ⟨label, .known .stwa, .symbol slot, .stackRelative⟩ behind
  | pointer {before behind : Code} {label name : String} {ref : Reference}
      (hRef : ctx.reference name = .ok ref) (hMode : ref.mode = .stackDeferredIndexed) :
      Use ctx before ⟨label, .known .ldwa, .symbol ref.target, .stackRelative⟩ behind
  | base {before behind : Code} {label name : String} {ref : Reference} {slot : Int64}
      (hRef : ctx.reference name = .ok ref) (hMode : ref.mode = .indexed)
      (hNext : behind.head? = some (Context.storeAt slot)) : Use ctx before
        ⟨label, .known .ldwa, .symbol ref.target, .immediate⟩ behind
  | offset {before behind : Code} {label name : String} {ref : Reference} {previous : Instruction}
      (hRef : ctx.reference name = .ok ref) (hMode : ref.mode = .stackIndexed)
      (hLast : before.getLast? = some previous) (hPrevious : previous.op = .known .movspa) :
      Use ctx before ⟨label, .known .adda, .symbol ref.target, .immediate⟩ behind
  | call {before behind : Code} {label name : String} {given : Nat} {callee : Callee}
      (hCallee : ctx.callee name given = .ok callee) : Use ctx before
        ⟨label, .known .call, .symbol callee.label, .none⟩ behind

variable {ctx : Context} {before behind before' behind' : Code}

/- A use depends on nothing around it but its neighbours. -/
theorem Use.moved
    (h : Use ctx before i behind)
    (label : String)
    (hBefore : ∀ j, before.getLast? = some j → ∃ j', before'.getLast? = some j' ∧ j'.op = j.op)
    (hBehind : ∀ j, behind.head? = some j → behind'.head? = some j) :
    Use ctx before' (i.labelled label) behind' := by
  cases h with
  | unary hForm => exact .unary hForm
  | number hForm hMode => exact .number hForm hMode
  | read hRead hRef => exact .read hRead hRef
  | write hForm hRef hKept => exact .write hForm hRef hKept
  | returned hInside hSlot => exact .returned hInside hSlot
  | pointer hRef hMode => exact .pointer hRef hMode
  | base hRef hMode hNext => exact .base hRef hMode (hBehind _ hNext)
  | offset hRef hMode hLast hPrevious =>
    rcases hBefore _ hLast with ⟨_, hLast', hOp⟩
    exact .offset hRef hMode hLast' (hOp.trans hPrevious)
  | call hCallee => exact .call hCallee

theorem use_stable (ctx : Context) : Stable (Use ctx) := by
  intro outer before i behind further h
  refine h.moved i.label (fun j hLast => ⟨j, ?_, rfl⟩) fun j hNext => ?_
  · rw [getLast?_append, hLast]
    rfl
  · rw [head?_append, hNext]
    rfl

theorem uses_labelFirst
    (label : String)
    (h : Everywhere (Use ctx) code) :
    Everywhere (Use ctx) (labelFirst label code) := by
  cases code with
  | nil => exact h
  | cons first rest =>
    intro before i behind hEq
    cases before with
    | nil =>
      cases hEq
      exact (h [] first rest rfl).moved label (fun _ hLast => nomatch hLast) fun _ hNext => hNext
    | cons _ before =>
      rw [labelFirst, cons_append, List.cons.injEq] at hEq
      rw [← hEq.1]
      have hUse := h (first :: before) i behind (by rw [hEq.2, cons_append])
      refine hUse.moved i.label (fun j hLast => ?_) fun _ hNext => hNext
      cases before with
      | nil =>
        cases hLast
        exact ⟨first.labelled label, rfl, rfl⟩
      | cons =>
        rw [getLast?_cons_cons] at hLast ⊢
        exact ⟨j, hLast, rfl⟩

------------------------------------------------------------
-- Emitted Code
------------------------------------------------------------

/- Code without labels in which every instruction is a use. -/
structure Emitted (ctx : Context) (code : Code) : Prop where
  unlabelled : ∀ i ∈ code, i.label = ""
  uses : Everywhere (Use ctx) code

namespace Emitted

theorem nil : Emitted ctx [] where
  unlabelled := by simp
  uses := .nil

theorem singleton {operand : Listing.Operand} {mode : Mode}
    (h : Use ctx [] (.of m operand mode) []) :
    Emitted ctx [.of m operand mode] where
  unlabelled := by
    intro _ hI
    rw [mem_singleton.mp hI]
    rfl
  uses := .singleton h

theorem append
    (hFirst : Emitted ctx first)
    (hSecond : Emitted ctx second) :
    Emitted ctx (first ++ second) where
  unlabelled := by
    intro i hI
    rcases mem_append.mp hI with hI | hI
    · exact hFirst.unlabelled i hI
    · exact hSecond.unlabelled i hI
  uses := .append (use_stable ctx) hFirst.uses hSecond.uses

end Emitted

theorem emitted_adjustStack
    (bytes : Int64)
    (hOp : m = .subsp ∨ m = .addsp) :
    Emitted ctx (adjustStack m bytes) := by
  unfold adjustStack
  split
  · rcases hOp with rfl | rfl <;> exact .singleton (.number rfl (.inl ⟨rfl, rfl⟩))
  · exact .nil

theorem joined_emitted (ctx : Context) : Joined ctx (Emitted ctx) where
  nil := .nil
  append := .append
  literal := fun hRead _ => .singleton (.number hRead.form (.inl ⟨rfl, hRead.unwritten⟩))
  slot := fun hQuiet _ => .singleton (.number hQuiet.form (.inr rfl))
  read := fun hRead hRef => .singleton (.read hRead hRef)
  scale := .singleton (.unary rfl)
  base := fun hRef hMode _ => ⟨by simp [Instruction.of, Context.storeAt],
    .pair (.base hRef hMode rfl) (.number rfl (.inr rfl))⟩
  offset := fun hRef hMode => ⟨by simp [Instruction.plain, Instruction.of],
    .pair (.unary rfl) (.offset hRef hMode rfl rfl)⟩
  pointer := fun hRef hMode => .singleton (.pointer hRef hMode)

theorem transfer_emitted {name : String} {given : Nat} {callee : Callee}
    (h : ctx.callee name given = .ok callee) :
    Emitted ctx callee.transfer := by
  have hCall : Emitted ctx [.jump .call callee.label] := .singleton (.call h)
  have hSub : ∀ bytes, Emitted ctx (adjustStack .subsp bytes) :=
    fun bytes => emitted_adjustStack bytes (.inl rfl)
  have hAdd : ∀ bytes, Emitted ctx (adjustStack .addsp bytes) :=
    fun bytes => emitted_adjustStack bytes (.inr rfl)
  unfold Callee.transfer
  refine ((hSub _).append hCall).append ?_
  split
  · exact ((hAdd _).append (.singleton (.number rfl (.inr rfl)))).append (hAdd _)
  · exact hAdd _

theorem composed_emitted (ctx : Context) : Composed ctx fun _ => Emitted ctx :=
  (joined_emitted ctx).composed (fun h => h) .append
    (fun hQuiet hRef hKept => .singleton (.write hQuiet.form hRef hKept))
    fun hCallee _ hStores => hStores.append (transfer_emitted hCallee)

theorem operandCode_ne_nil {op : Register → Mnemonic} {r : Register}
    {operand : Simple}
    (h : ctx.operandCode op r operand = .ok code) :
    code ≠ [] := by
  cases operandCode_parts h with
  | direct => exact cons_ne_nil _ _
  | element => exact append_ne_nil_of_right_ne_nil _ (cons_ne_nil _ _)

/- The label is that of the first instruction, and of no other. -/
theorem ConditionParts.labelled {label exit : String} {test : Expr}
    (parts : ConditionParts ctx label exit test code) :
    ∃ i rest,
      code = i :: rest ∧ i.label = label ∧ ∀ j ∈ rest, j.label = "" := by
  have hSome := operandCode_ne_nil parts.first_eq
  have hFirst := (joined_emitted ctx).operand isRead_load parts.first_eq
  have hSecond := (joined_emitted ctx).operand isRead_compare parts.second_eq
  rw [parts.code_eq]
  cases hCode : parts.first with
  | nil => exact absurd hCode hSome
  | cons i others =>
    rw [hCode] at hFirst
    refine ⟨i.labelled label, others ++ (parts.second
      ++ [.jump (exitBranch parts.op) exit]), ?_, rfl, ?_⟩
    · rw [append_assoc]
      rfl
    · intro j hJ
      rcases mem_append.mp hJ with hJ | hJ
      · exact hFirst.unlabelled j (mem_cons_of_mem _ hJ)
      rcases mem_append.mp hJ with hJ | hJ
      · exact hSecond.unlabelled j hJ
      · rw [mem_singleton.mp hJ]
        rfl

/- A condition ends with a branch behind the uses of its operands. -/
theorem conditionCode_uses {label exit : String} {test : Expr}
    (h : ctx.conditionCode label exit test = .ok code) :
    ∃ operands m, code = operands ++ [.jump m exit] ∧ m.form = .branch ∧ m ≠ .call ∧
      Everywhere (Use ctx) operands := by
  rcases conditionCode_parts h with ⟨parts⟩
  have hFirst := (joined_emitted ctx).operand isRead_load parts.first_eq
  have hSecond := (joined_emitted ctx).operand isRead_compare parts.second_eq
  refine ⟨_, _, parts.code_eq, ?_, ?_,
    .append (use_stable ctx) (uses_labelFirst label hFirst.uses) hSecond.uses⟩
  · cases parts.op <;> rfl
  · cases parts.op <;> decide

theorem Plain.emitted {g' : Generator} {stmt : Stmt}
    (h : Plain g stmt code g') :
    Emitted g.context code := by
  have hParts := composed_emitted g.context
  cases hParts.plain h with
  | through hCode => exact hCode
  | stop => exact .singleton (.unary rfl)
  | @ret _ _ _ f _ hFunction hTable hReturn =>
    have hLeave : ∀ slot, Emitted g.context (storeValue slot) →
          Emitted g.context (f.sig.leaving slot) :=
      fun _ hStore => (hStore.append (emitted_adjustStack _ (.inr rfl))).append
        (.singleton (.unary rfl))
    cases hReturn with
    | none => exact hLeave none .nil
    | some hMade hSlot =>
      refine (hParts.expr hMade).append (hLeave (some _) (.singleton ?_))
      exact .returned (by rw [hFunction]; rfl) (hTable ▸ hSlot)

end Compile

end Pep9
