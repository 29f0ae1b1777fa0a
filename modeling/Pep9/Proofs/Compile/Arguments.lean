import Pep9.Proofs.Compile.Evaluation

/-
  The arguments of calls. Each is computed with those before
  it in their places already, and stored in its own place
  below the stack pointer.

  Key theorems: `argsCode_readies`, `argsCode_fills`.
-/

namespace Pep9

open List
open Assembly (codeStart codeBytes)
open Isa (Addressing)
open Listing (Mode Program)
open Machine (Clear Steps obeyAll)
open Script (Expr wordOf)

variable {address w : UInt16} {e : Expr} {next : Machine} {words : List UInt16}

namespace Compile

section Computing

variable {value : String → UInt16} {ctx : Context} {code : Code} {m : Machine}

variable (value m) in
theorem puts_pointer : ∃ last, Puts value (.plain .movspa) .a m.sp m last := by
  have hFitting : Fitting (.plain .movspa) := .unary rfl
  have hObey : m.obey value (.plain .movspa) =
        (Register.a.set (m.passed value (.plain .movspa)) (m.sp, m.flags), none) := by
    rfl
  exact ⟨_, puts_of_set hFitting hObey⟩

/-
  The code of an argument computes its word in a register, and
  stores that register below the stack pointer.
-/
def Readied (value : String → UInt16) (ctx : Context) (slot : Int64)
    (arg : Expr) (code : Code) (m : Machine) : Prop :=
  ∃ (front : Code) (r : Register) (next : Machine),
    code = front ++ [.of r.store (.number slot) .stackRelative] ∧ Executes value front m next ∧
      ctx.word? value m.sp m.memory arg = some (r.read next)

/- A variable, or the address of an array, is stored. -/
theorem nameArgument_readied {slot : Int64} {id : String}
    (hMade : ctx.nameArgument slot id = .ok code) :
    Readied value ctx slot (.name id) code m := by
  -- One instruction loads what is stored, unless it is a local array.
  have hLoaded : ∀ (r : Register) (target : String) (suffix : Mode) {mode : Addressing},
        suffix.addressing? = some mode →
          ∃ next, Executes value [.of r.load (.symbol target) suffix] m next ∧
              r.read next = m.operand (value target) mode := by
    intro r target suffix mode hMode
    have hLoads : ∃ next, Puts value (.of r.load (.symbol target) suffix) r _ m next :=
      applies_load value nofun hMode rfl
    rcases hLoads with ⟨next, hNext⟩
    exact ⟨next, hNext.executes, hNext.read⟩
  unfold Readied
  cases nameArgument_parts hMade with
  | @base ref hRef hMode =>
    rcases hLoaded .a ref.target .immediate rfl with ⟨next, hNext, hRead⟩
    refine ⟨_, .a, next, rfl, hNext, ?_⟩
    rw [word?_name hRef, Reference.word?, hMode]
    exact congrArg some hRead.symm
  | @offset ref hRef hMode =>
    rcases puts_pointer value m with ⟨copied, hCopied⟩
    have hAdd : Applies value Register.add Script.Arith.add.word? := applies_arith value rfl
    have hAdds : ∃ next,
        Puts value (.of Register.a.add (.symbol ref.target) .immediate) .a _ copied next :=
      hAdd nofun rfl rfl
    rcases hAdds with ⟨next, hNext⟩
    refine ⟨_, .a, next, rfl, hCopied.executes.append hNext.executes, ?_⟩
    rw [word?_name hRef, Reference.word?, hMode, hNext.read, hCopied.read]
    rfl
  | @pointer ref hRef hMode =>
    rcases hLoaded .a ref.target .stackRelative rfl with ⟨next, hNext, hRead⟩
    refine ⟨_, .a, next, rfl, hNext, ?_⟩
    rw [word?_name hRef, Reference.word?, hMode]
    exact congrArg some hRead.symm
  | @word _ r _ hRef hPlain =>
    rcases reference_eq_ok hRef with ⟨b, _, rfl⟩
    rcases ctx.mode_addressing id b with ⟨_, hMode, _⟩
    rcases hLoaded r b.target _ hMode with ⟨next, hNext, hRead⟩
    refine ⟨_, _, next, rfl, hNext, ?_⟩
    rw [hRead, word?_name hRef]
    exact operand_of_plain value m hMode hPlain

/- Without any calls there are none of functions. -/
theorem callsDefined_of_hasCall (h : hasCall e = false) :
    callsDefined e = false := by
  fun_induction hasCall e with
  | case1 => cases h
  | case2 _ _ _ ihLeft ihRight =>
    rw [Bool.or_eq_false_iff] at h
    rw [callsDefined, ihLeft h.1, ihRight h.2]
    rfl
  | case3 e hCall hArith =>
    cases e with
    | call function args => exact absurd rfl (hCall function args)
    | arith op left right => exact absurd rfl (hArith op left right)
    | _ => simp only [callsDefined]

/- Without calls the value is that of an argument. -/
theorem value?_of_hasCall (h : hasCall e = false) :
    ctx.value? value m e = ctx.word? value m.sp m.memory e := by
  fun_induction hasCall e with
  | case1 => cases h
  | case2 _ _ _ ihLeft ihRight =>
    rw [Bool.or_eq_false_iff] at h
    rw [Context.value?, Context.word?, ihLeft h.1, ihRight h.2]
  | case3 e hCall hArith =>
    cases e with
    | call function args => exact absurd rfl (hCall function args)
    | arith op left right => exact absurd rfl (hArith op left right)
    | _ => simp only [Context.value?, Context.word?]

/- The arguments of a call are computed and stored in their order. -/
inductive Readies (value : String → UInt16) (ctx : Context) : Int64 → List Expr → Code → Prop where
  | nil (slot : Int64) : Readies value ctx slot [] []
  | cons {slot : Int64} {arg : Expr} {rest : List Expr} {first others : Code}
      (hFirst : ∀ m, Readied value ctx slot arg first m)
      (hRest : Readies value ctx (slot + 2) rest others) :
      Readies value ctx slot (arg :: rest) (first ++ others)

variable (value) in
theorem argsCode_readies {slot : Int64} {args : List Expr}
    (hMade : argsCode ctx slot args = .ok code) :
    Readies value ctx slot args code := by
  refine ((freeCases_valued value ctx).exprCases (.nil _) (fun hFirst hOthers =>
    .cons (fun _ => nameArgument_readied hFirst) hOthers) ?_).args hMade
  intro _ _ _ first _ hCalls hFirst hOthers
  refine .cons (fun m => ?_) hOthers
  rcases hFirst (callsDefined_of_hasCall hCalls) m with ⟨_, next, hValue, hNext, hRead⟩
  rw [resultRegister_a] at hRead
  rw [value?_of_hasCall hCalls, ← hRead] at hValue
  exact ⟨first, .a, next, rfl, hNext, hValue⟩

theorem Context.words?_cons {sp : UInt16} {memory : Machine.Memory} {arg : Expr}
    {rest : List Expr}
    (hFirst : ctx.word? value sp memory arg = some w)
    (hRest :
      ctx.words? value sp (address + 2) (memory.setWord address w) rest = some words) :
    ctx.words? value sp address memory (arg :: rest) = some (w :: words) := by
  rw [Context.words?, hFirst]
  simp only [Option.bind_eq_bind, Option.bind_some, hRest]
  rfl

end Computing

section Storing

variable {value : String → UInt16} {m : Machine} {code : Code}

/-
  Some code leaves words at an address and after it, and the
  stack pointer as it was. In a program it is executed in its
  place, if those words are clear of the program.
-/
structure Fills (value : String → UInt16) (code : Code) (m : Machine)
    (address : UInt16) (words : List UInt16) (last : Machine) : Prop where
  obeys : obeyAll value code m = (last, none)
  sp : last.sp = m.sp
  memory : last.memory = m.memory.setWords address words
  executing : ∀ ⦃p : Program⦄ ⦃limit : Nat⦄ ⦃before behind : Code⦄, (∀ i ∈ p.code, Fitting i) →
      codeStart p + (codeBytes value p.code).length ≤ limit →
        Clear limit address (2 * words.length) → Executing p value before m →
          p.code = before ++ code ++ behind →
            ∃ n, Steps n m last ∧ Executing p value (before ++ code) last

theorem Fills.nil
    (m : Machine)
    (address : UInt16) :
    Fills value [] m address [] m := by
  refine ⟨rfl, rfl, rfl, fun p limit before behind _ _ _ h _ => ⟨0, .refl m, ?_⟩⟩
  rw [append_nil]
  exact h

theorem Fills.cons {first others : Code} {last : Machine}
    (hFirst : Fills value first m address [w] next)
    (hOthers : Fills value others next (address + 2) words last) :
    Fills value (first ++ others) m address (w :: words) last where
  obeys := (Machine.obeyAll_append hFirst.obeys).trans hOthers.obeys
  sp := hOthers.sp.trans hFirst.sp
  memory := by
    rw [hOthers.memory, hFirst.memory]
    rfl
  executing := by
    intro p limit before behind hFitting hLimit hClear h hCode
    rw [← append_assoc] at hCode ⊢
    rw [length_cons] at hClear
    have hHere : Clear limit address 2 := by
      have hSub := hClear.sub (show 0 + 2 ≤ _ by omega)
      rwa [Machine.offset_zero] at hSub
    have hThere : Clear limit (address + 2) (2 * words.length) :=
      hClear.sub (show 2 + 2 * words.length ≤ _ by omega)
    rcases hFirst.executing hFitting hLimit hHere h (hCode.trans (append_assoc ..)) with
      ⟨_, hSteps, hNext⟩
    rcases hOthers.executing hFitting hLimit hThere hNext hCode with ⟨_, hMore, hLast⟩
    exact ⟨_, hSteps.trans hMore, hLast⟩

/- A word that was computed is stored below the stack pointer. -/
theorem Executes.fills
    (h : Executes value code m next)
    (r : Register)
    (slot : Int64) :
    ∃ last, Fills value (code ++ [.of r.store (.number slot) .stackRelative]) m
        (m.sp + wordOf slot) [r.read next] last := by
  have hObey := Machine.obey_store value next r (.number slot) nofun
    (rfl : Mode.stackRelative.addressing? = some .stackRelative) nofun
  have hFitting : Fitting (.of r.store (.number slot) .stackRelative) :=
    Machine.fitting_write (quiet_store r).form nofun rfl nofun
  refine ⟨_, (h.performs hFitting hObey).obeys, h.sp, ?_, ?_⟩
  · rw [← h.memory, ← h.sp]
    rfl
  · intro p limit before behind hFitting hLimit hClear hAt hCode
    rw [← append_assoc, append_assoc] at hCode
    rw [← h.sp] at hClear
    rcases hAt.executes hCode h with ⟨hSteps, hNext⟩
    rcases hNext.store hFitting hCode nofun hLimit hClear with ⟨_, _, hMore, hLast, rfl⟩
    rw [← append_assoc]
    exact ⟨_, hSteps.trans hMore, hLast⟩

/- The words of the arguments are left where their places start. -/
theorem argsCode_fills {ctx : Context} {slot : Int64} {args : List Expr}
    (hMade : argsCode ctx slot args = .ok code)
    (m : Machine) :
    ∃ words last, ctx.words? value m.sp (m.sp + wordOf slot) m.memory args = some words ∧
        Fills value code m (m.sp + wordOf slot) words last := by
  have hReadies := argsCode_readies value hMade
  clear hMade
  induction hReadies generalizing m with
  | nil => exact ⟨[], m, rfl, .nil m _⟩
  | @cons slot _ _ _ _ hFirst _ ih =>
    rcases hFirst m with ⟨_, r, _, rfl, hComputed, hW⟩
    rcases hComputed.fills r slot with ⟨next, hNext⟩
    rcases ih next with ⟨_, last, hWords, hLast⟩
    have hSlot : next.sp + wordOf (slot + 2) = m.sp + wordOf slot + 2 := by
      rw [hNext.sp, Script.wordOf_add, ← UInt16.add_assoc]
      rfl
    rw [hSlot] at hWords hLast
    rw [hNext.sp, hNext.memory] at hWords
    exact ⟨_, last, Context.words?_cons hW hWords, hNext.cons hLast⟩

end Storing

end Compile

end Pep9
