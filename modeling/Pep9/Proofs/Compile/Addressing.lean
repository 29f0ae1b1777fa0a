import Mathlib.Data.List.Pairwise
import Pep9.Proofs.Compile.Closed

/-
  Addressing modes agree with storage. Constants are
  immediate, static storage is direct or indexed, and what a
  function owns is used in that function, relative to the
  stack pointer. There is one exception: a variable with the
  name of an array but a number as its first value is taken
  from the stack when a function uses it.

  Key theorems: `Facts.mention`, `compile_addressed`,
  `misnamed_on_stack`.
-/

namespace Pep9

open List
open Listing (Instruction Declaration)
open Script (Stmt)

namespace Compile

variable {name : String} {before behind : Code} {i : Instruction} {d : Declaration}

/- The address of an array is loaded and stored as an argument. -/
def PassesBase (i : Instruction) (behind : Code) : Prop :=
  i.op = .known .ldwa ∧ ∃ slot, behind.head? = some (Context.storeAt slot)

/- An offset is added to the stack pointer. -/
def AfterStackPointer (before : Code) (i : Instruction) : Prop :=
  i.op = .known .adda ∧ ∃ previous, before.getLast? = some previous ∧ previous.op = .known .movspa

/- Whether a name of the top level with a target is an array name. -/
def NamedArray (compiled : Compiled) (target : String) : Prop :=
  ∃ b ∈ compiled.table.data, b.target = target ∧ isArrayName b.source = true

/-
  A word with the name of an array, at a place in the code of
  a function.
-/
def Misnamed (compiled : Compiled) (d : Declaration) (before behind : Code) : Prop :=
  d.directive = .word ∧ NamedArray compiled d.name ∧
    ∃ function, Around compiled.table.labels function before behind

/-
  An instruction that addresses its operand as the storage of
  the operand requires.
-/
structure Addressed (compiled : Compiled) (before : Code) (i : Instruction)
    (behind : Code) : Prop where
  constant : ∀ d ∈ compiled.program.data, d.directive = .equate →
      i.operand = .symbol d.name → i.mode = .immediate
  static : ∀ d ∈ compiled.program.data, d.directive = .word ∨ d.directive = .block →
      i.operand = .symbol d.name → i.mode = .direct ∨ i.mode = .indexed ∨
          (i.mode = .immediate ∧ d.directive = .block ∧
            NamedArray compiled d.name ∧ PassesBase i behind) ∨
          (i.mode = .stackRelative ∧ Misnamed compiled d before behind)
  frame : ∀ f ∈ compiled.program.frames, ∀ d ∈ f.decls, i.operand = .symbol d.name →
        Around compiled.table.labels f.function before behind ∧
          (i.mode = .stackRelative ∨ i.mode = .stackIndexed ∨ i.mode = .stackDeferredIndexed ∨
            (i.mode = .immediate ∧ AfterStackPointer before i))

section Modes

variable {ctx : Context} {b : Binding}

theorem mode_of_constant
    (hScope : b.scope = .global)
    (hName : isConstantName b.source = true) :
    ctx.mode b.source b = .immediate := by
  unfold Context.mode
  simp [hScope, hName]

theorem not_constant_of_array (h : isArrayName name = true) :
    isConstantName name = false := by
  unfold isArrayName at h
  simp only [Bool.and_eq_true, Bool.not_eq_true'] at h
  exact h.2

section

variable (hScope : b.scope = .global) (hName : isConstantName b.source = false)
include hScope hName

theorem mode_of_array (hArray : b.target ∈ ctx.arrays) :
    ctx.mode b.source b = .indexed := by
  unfold Context.mode
  simp [hScope, hName, hArray]

theorem mode_of_scalar (hArray : b.target ∉ ctx.arrays) :
    ctx.mode b.source b = if ctx.function.isSome then .stackRelative else .direct := by
  unfold Context.mode
  simp [hScope, hName, hArray]

end

theorem mode_of_local
    (hScope : b.scope ≠ .global)
    (hInside : ctx.function.isSome = true) :
    ctx.mode b.source b = .stackRelative ∨ ctx.mode b.source b = .stackIndexed ∨
      ctx.mode b.source b = .stackDeferredIndexed := by
  unfold Context.mode
  simp only [hScope, hInside, decide_false, Bool.and_false,
    Bool.false_eq_true, if_false, ne_eq, not_false_eq_true, decide_true, Bool.and_self, if_true]
  split
  · split
    · exact .inr (.inr rfl)
    · exact .inr (.inl rfl)
  · exact .inl rfl

end Modes

section Parts

variable {options : Options} {stmts : List Stmt} {compiled : Compiled}
  {parts : Parts options .empty stmts compiled}

/- What is in sight in a program. -/
abbrev Parts.Sees (parts : Parts options .empty stmts compiled) (ctx : Context) : Prop :=
  Sight parts.bound.data parts.arrays compiled.program.frames compiled.table.labels ctx

theorem Facts.mention
    (facts : Facts parts)
    (hCode : compiled.program.code = before ++ i :: behind)
    (hOperand : i.operand = .symbol name)
    (hName : name ∉ labels compiled.program.code) :
    ∃ ctx b, parts.Sees ctx ∧ b ∈ ctx.table.data ∧ b.target = name ∧ Mention ctx b before i behind ∧
        ∀ sig, ctx.function = some sig → Around compiled.table.labels sig.name before behind := by
  have hI : i ∈ compiled.program.code := by
    rw [hCode]
    exact mem_append_right _ mem_cons_self
  rcases facts.closed.accepted i hI with ⟨m, hOp, _⟩
  have hForm : m.form ≠ .branch := by
    intro hBranch
    rcases facts.jump hI hOp hBranch with ⟨_, hMem, hTarget⟩
    cases hTarget.symm.trans hOperand
    exact hName hMem
  cases facts.placed before i behind hCode with
  | jump hBranch =>
    cases hOp
    exact absurd hBranch hForm
  | @use _ _ ctx hSight hPlace hUse =>
    rcases hUse.mention hOp hForm hOperand with ⟨b, hB, hTarget, hMention⟩
    refine ⟨ctx, b, hSight, hB, hTarget, hMention, ?_⟩
    intro _ hSig
    rw [hSig] at hPlace
    rcases hPlace with hHome | ⟨_, hSig', hAround⟩
    · cases hHome
    · cases hSig'
      exact hAround

variable {b : Binding} {ctx : Context}

theorem Facts.binding_of_data
    (facts : Facts parts)
    (hSight : parts.Sees ctx)
    (hB : b ∈ ctx.table.data)
    (hD : d ∈ compiled.program.data)
    (hTarget : b.target = d.name) :
    (ctx.function.isSome = true →
      isConstantName b.source = true ∨ isArrayName b.source = true) ∧ b ∈ parts.bound.data ∧
      ∃ v, Variable parts b v ∧ d = v.storage.declaration b.target := by
  rcases hSight.data b hB with ⟨hGlobal, hSeen⟩ | ⟨_, _, _, f, hF, _, _, hD', hName⟩
  · rcases facts.variable hGlobal with ⟨v, hVar⟩
    refine ⟨hSeen, hGlobal, v, hVar, ?_⟩
    refine facts.declaration_eq hD hVar.declared ?_
    rw [Storage.declaration_name, hTarget]
  · have hFrame : d.name ∈ frameNames compiled.program.frames := by
      rw [← hTarget, ← hName]
      exact mem_flatMap.mpr ⟨f, hF, mem_map_of_mem hD'⟩
    exact absurd hFrame (facts.names_apart.1 d.name (mem_map_of_mem hD)).2

/- The result of a function has no name of a variable. -/
theorem Facts.source_ne_return {v : Global}
    (facts : Facts parts)
    (hVar : Variable parts b v) :
    b.source ≠ returnSource := by
  intro hSource
  have hIdentifier := facts.wellformed.identifiers v hVar.mem
  have hName : b.source = v.name := congrArg Binding.source hVar.binding
  rw [← hName, hSource] at hIdentifier
  exact not_isIdentifier_returnSource hIdentifier

section

variable (h : Mention ctx b before i behind)
include h

theorem Mention.of_constant
    (hMode : ctx.mode b.source b = .immediate)
    (hSource : b.source ≠ returnSource) :
    i.mode = .immediate := by
  cases h with
  | named hNamed => rw [hNamed, hMode]
  | returned hReturn => exact absurd hReturn hSource
  | pointer hArray | base hArray | offset hArray => cases hMode.symm.trans hArray

theorem Mention.of_array
    (hMode : ctx.mode b.source b = .indexed)
    (hSource : b.source ≠ returnSource) :
    i.mode = .indexed ∨ (i.mode = .immediate ∧ PassesBase i behind) := by
  cases h with
  | named hNamed => exact .inl (by rw [hNamed, hMode])
  | returned hReturn => exact absurd hReturn hSource
  | pointer hArray => cases hMode.symm.trans hArray
  | base _ hImmediate hOp hNext => exact .inr ⟨hImmediate, hOp, _, hNext⟩
  | offset hArray => cases hMode.symm.trans hArray

theorem Mention.of_scalar
    (hMode : (ctx.mode b.source b).isIndexed = false)
    (hSource : b.source ≠ returnSource) :
    i.mode = ctx.mode b.source b := by
  cases h with
  | named hNamed => exact hNamed
  | returned hReturn => exact absurd hReturn hSource
  | pointer hArray | base hArray | offset hArray =>
    rw [hArray] at hMode
    cases hMode

theorem Mention.of_local
    (hScope : b.scope ≠ .global)
    (hInside : ctx.function.isSome = true) :
    i.mode = .stackRelative ∨ i.mode = .stackIndexed ∨
      i.mode = .stackDeferredIndexed ∨ (i.mode = .immediate ∧ AfterStackPointer before i) := by
  have hMode := mode_of_local hScope hInside
  cases h with
  | named hNamed =>
    rw [hNamed]
    rcases hMode with hMode | hMode | hMode
    · exact .inl hMode
    · exact .inr (.inl hMode)
    · exact .inr (.inr (.inl hMode))
  | returned _ _ hStack | pointer _ hStack => exact .inl hStack
  | base hArray =>
    rw [hArray] at hMode
    rcases hMode with hMode | hMode | hMode <;> cases hMode
  | offset _ hImmediate hOp hLast hPrevious =>
    exact .inr (.inr (.inr ⟨hImmediate, hOp, _, hLast, hPrevious⟩))

end

------------------------------------------------------------
-- Whole Programs
------------------------------------------------------------

section

variable (facts : Facts parts)
  (hCode : compiled.program.code = before ++ i :: behind)
  (hD : d ∈ compiled.program.data)
include facts hCode hD

theorem Facts.addressed_constant
    (hEquate : d.directive = .equate)
    (hOperand : i.operand = .symbol d.name) :
    i.mode = .immediate := by
  have hApart := facts.names_apart.1 d.name (mem_map_of_mem hD)
  rcases facts.mention hCode hOperand hApart.1 with ⟨_, b, hSight, hB, hTarget, hMention, _⟩
  rcases facts.binding_of_data hSight hB hD hTarget with ⟨_, _, v, hVar, hDecl⟩
  have hName : b.source = v.name := congrArg Binding.source hVar.binding
  have hScope : b.scope = .global := congrArg Binding.scope hVar.binding
  have hConstant : isConstantName b.source = true := by
    have hFits := hVar.fits
    rw [hName]
    cases hStorage : v.storage <;> rw [hDecl, hStorage] at hEquate <;>
      rw [hStorage] at hFits
    · cases hEquate
    · exact hFits
    · cases hEquate
    · cases hEquate
  exact hMention.of_constant (mode_of_constant hScope hConstant) (facts.source_ne_return hVar)

/- How storage of the program is addressed. -/
theorem Facts.addressed_static
    (hStatic : d.directive = .word ∨ d.directive = .block)
    (hOperand : i.operand = .symbol d.name) :
    i.mode = .direct ∨ i.mode = .indexed ∨ (i.mode = .immediate ∧ d.directive = .block ∧
        NamedArray compiled d.name ∧ PassesBase i behind) ∨
      (i.mode = .stackRelative ∧ Misnamed compiled d before behind) := by
  have hApart := facts.names_apart.1 d.name (mem_map_of_mem hD)
  rcases facts.mention hCode hOperand hApart.1 with ⟨ctx, b, hSight, hB, hTarget, hMention, hAround⟩
  rcases facts.binding_of_data hSight hB hD hTarget with ⟨hSeen, hGlobal, v, hVar, hDecl⟩
  have hName : b.source = v.name := congrArg Binding.source hVar.binding
  have hScope : b.scope = .global := congrArg Binding.scope hVar.binding
  have hReturn := facts.source_ne_return hVar
  have hArrays := (hSight.arrays b hGlobal).trans hVar.array
  have hBound : b ∈ compiled.table.data := facts.data ▸ hGlobal
  have hFits := hVar.fits
  rw [← hName] at hFits
  have hScalar : isConstantName b.source = false → b.target ∉ ctx.arrays → i.mode = .direct ∨
          (i.mode = .stackRelative ∧ isArrayName b.source = true ∧ ∃ function,
              Around compiled.table.labels function before behind) := by
    intro hConstant hArray
    have hMode := mode_of_scalar hScope hConstant hArray
    cases hFunction : ctx.function with
    | none =>
      rw [hFunction] at hMode
      refine .inl ((hMention.of_scalar ?_ hReturn).trans hMode)
      rw [hMode]
      rfl
    | some sig =>
      rw [hFunction] at hMode hSeen
      refine .inr ⟨(hMention.of_scalar ?_ hReturn).trans hMode, ?_, sig.name, hAround sig hFunction⟩
      · rw [hMode]
        rfl
      · rcases hSeen rfl with hSome | hSome
        · rw [hConstant] at hSome
          cases hSome
        · exact hSome
  -- The storage decides between an array and a scalar.
  cases hStorage : v.storage with
  | constant =>
    rw [hDecl, hStorage] at hStatic
    rcases hStatic with hStatic | hStatic <;> cases hStatic
  | array =>
    rw [hStorage] at hArrays hDecl hFits
    have hArray := hArrays.mpr rfl
    have hConstant := not_constant_of_array hFits
    rcases hMention.of_array (mode_of_array hScope hConstant hArray)
      hReturn with hMode | ⟨hMode, hPasses⟩
    · exact .inr (.inl hMode)
    · refine .inr (.inr (.inl ⟨hMode, ?_, ?_, hPasses⟩))
      · rw [hDecl]
        rfl
      · exact ⟨b, hBound, hTarget, hFits⟩
  | uninitialized =>
    rw [hStorage] at hArrays hFits
    rcases hScalar hFits.1 (fun hArray => nomatch hArrays.mp hArray) with hMode | ⟨_, hSome, _⟩
    · exact .inl hMode
    · rw [hFits.2] at hSome
      cases hSome
  | value =>
    rw [hStorage] at hArrays hDecl hFits
    rcases hScalar hFits (fun hArray => nomatch hArrays.mp hArray) with hMode | ⟨hMode, hSome, hIn⟩
    · exact .inl hMode
    · refine .inr (.inr (.inr ⟨hMode, ?_, ⟨b, hBound, hTarget, hSome⟩, hIn⟩))
      rw [hDecl]
      rfl

end

/- The names of a frame belong to one function. -/
theorem frame_eq_of_name {frames : List Listing.Frame} {f f' : Listing.Frame}
    (hNodup : (frameNames frames).Nodup)
    (hF : f ∈ frames)
    (hF' : f' ∈ frames)
    (hName : name ∈ f.decls.map Declaration.name)
    (hName' : name ∈ f'.decls.map Declaration.name) :
    f = f' := by
  by_contra hNe
  have hApart := (nodup_flatMap.mp hNodup).2
  have : Std.Symm (Function.onFun List.Disjoint
      fun f : Listing.Frame => f.decls.map Declaration.name) :=
    ⟨fun _ _ h _ hFirst hSecond => h hSecond hFirst⟩
  exact hApart.forall hF hF' hNe hName hName'

/- How slots of a frame are addressed, and where. -/
theorem Facts.addressed_frame {f : Listing.Frame}
    (facts : Facts parts)
    (hCode : compiled.program.code = before ++ i :: behind)
    (hF : f ∈ compiled.program.frames)
    (hD : d ∈ f.decls)
    (hOperand : i.operand = .symbol d.name) :
    Around compiled.table.labels f.function before behind ∧
      (i.mode = .stackRelative ∨ i.mode = .stackIndexed ∨ i.mode = .stackDeferredIndexed ∨
        (i.mode = .immediate ∧ AfterStackPointer before i)) := by
  have hName : d.name ∈ f.decls.map Declaration.name := mem_map_of_mem hD
  have hFrame : d.name ∈ frameNames compiled.program.frames := mem_flatMap.mpr ⟨f, hF, hName⟩
  have hNodup : (frameNames compiled.program.frames).Nodup :=
    (nodup_append.mp (nodup_append.mp facts.supplies.nodup).2.1).2.1
  rcases facts.mention hCode hOperand (facts.names_apart.2 _ hFrame)
    with ⟨_, b, hSight, hB, hTarget, hMention, hAround⟩
  rcases hSight.data b hB with ⟨hGlobal, _⟩ |
    ⟨sig, hSig, hScope, f', hF', hFunction, _, hD', hName'⟩
  · have hData : d.name ∈ compiled.program.data.map Declaration.name := by
      rw [← facts.allocated.targets, ← hTarget]
      exact mem_map_of_mem hGlobal
    exact absurd hFrame (facts.names_apart.1 _ hData).2
  · have hOwner : f = f' := by
      refine frame_eq_of_name hNodup hF hF' hName ?_
      rw [← hTarget, ← hName']
      exact mem_map_of_mem hD'
    refine ⟨?_, hMention.of_local ?_ ?_⟩
    · rw [hOwner, hFunction]
      exact hAround sig hSig
    · rw [hScope]
      nofun
    · rw [hSig]
      rfl

end Parts

/-
  Every instruction that a source text compiles to addresses
  its operand as the storage of the operand requires.
-/
theorem compile_addressed {options : Options} {source : String}
    {compiled : Compiled}
    (h : compile options source = .ok compiled) :
    Everywhere (Addressed compiled) compiled.program.code := by
  rcases compile_generate h with ⟨_, hParsed, hGenerated⟩
  rcases generate_allocated hGenerated with ⟨parts, _⟩
  have facts := facts_of_parts parts (Script.parseSource_wellNamed hParsed)
  intro _ _ _ hCode
  exact {
    constant := fun d => facts.addressed_constant hCode
    static := fun d => facts.addressed_static hCode
    frame := fun f hF d => facts.addressed_frame hCode hF }

/- A global array that a function uses and is given. -/
theorem compile_addressed_array :
    ∃ compiled, compile ⟨0, ""⟩
        ("v_ = [0] * 4\ndef f(a_, b):\n    c = a_[b]\n    v_[0] = c\n"
          ++ "f(v_, 2)\n") = .ok compiled ∧
      Everywhere (Addressed compiled) compiled.program.code := by
  refine (Result.isOk_eq_true.mp ?_).imp fun _ h => ⟨h, compile_addressed h⟩
  decide +kernel

/-
  A number with the name of an array: the function takes the
  word from the stack.
-/
theorem misnamed_on_stack :
    ∃ compiled,
      compile ⟨0, ""⟩ "a_ = 5\ndef f():\n    print(a_)\nf()\n" = .ok compiled ∧
      ∃ i ∈ compiled.program.code, ∃ d ∈ compiled.program.data,
        d.directive = .word ∧ i.operand = .symbol d.name ∧ i.mode = .stackRelative := by
  refine (Result.any_eq_true.mp ?_).imp fun compiled h => ⟨h.1, of_decide_eq_true h.2⟩
  decide +kernel

end Compile

end Pep9
