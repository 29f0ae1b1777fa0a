import Pep9.Proofs.Compile.Layout

/-
  Levels of the stack in code that is passed from its start to
  its end. Expressions and calls leave the level as it is.

  Key theorems: `Level.flows`, `transfer_keeps`,
  `composed_keeps`.
-/

namespace Pep9

open List
open Isa (Mnemonic)
open Listing (Instruction Mode)

namespace Compile

/- Code without branches and ends, from a level to another. -/
def Level (inside : Bool) (base : Int) : Int → Code → Int → Prop
  | d, [], d' => d' = d
  | d, i :: rest, d' =>
    Sound inside base d i ∧ i.fallsThrough = true ∧
      i.jumpsTo? = none ∧ Level inside base (d + i.sinks) rest d'

/- The layout of code in which there are no functions. -/
def plot : Int → Code → Layout
  | _, [] => []
  | d, i :: rest => .own d i :: plot (d + i.sinks) rest

theorem plot_code (d : Int) (code : Code) : (plot d code).code = code := by
  induction code generalizing d with
  | nil => rfl
  | cons i _ ih =>
    have hRest := ih (d + i.sinks)
    unfold Layout.code at hRest ⊢
    rw [plot, Layout.chart_cons, map_append, hRest]
    rfl

theorem plot_islands (d : Int) (code : Code) : (plot d code).islands = [] := by
  induction code generalizing d with
  | nil => rfl
  | cons i _ ih => exact ih (d + i.sinks)

section Single

variable {inside : Bool} {base d : Int} {outer : List String} {last : Option Int} {i : Instruction}

theorem Flows.single
    (hSound : Sound inside base d i)
    (hNext : i.fallsThrough = true → last = some (d + i.sinks))
    (hJump :
      ∀ target, i.jumpsTo? = some target → d = base ∧ target ∈ outer) :
    Flows inside base outer [(some d, i)] last where
  linked := by
    refine ⟨?_, trivial⟩
    intro _ hD hFalls
    cases hD
    exact hNext hFalls
  jump := by
    intro _ _ target hMem hTo
    cases mem_singleton.mp hMem
    rcases hJump target hTo with ⟨hBase, hOuter⟩
    exact ⟨hBase, .inr hOuter⟩
  sound := by
    intro _ _ hMem
    cases mem_singleton.mp hMem
    exact hSound

end Single

namespace Level

variable {inside : Bool} {base d d₁ d₂ : Int} {first second code : Code} {i : Instruction}

theorem single
    (hSound : Sound inside base d i)
    (hFalls : i.fallsThrough = true)
    (hJump : i.jumpsTo? = none)
    (hSinks : d₁ = d + i.sinks) :
    Level inside base d [i] d₁ :=
  ⟨hSound, hFalls, hJump, hSinks⟩

theorem append
    (hFirst : Level inside base d first d₁)
    (hSecond : Level inside base d₁ second d₂) :
    Level inside base d (first ++ second) d₂ := by
  induction first generalizing d with
  | nil =>
    cases hFirst
    exact hSecond
  | cons _ _ ih =>
    rcases hFirst with ⟨hSound, hFalls, hJump, hRest⟩
    exact ⟨hSound, hFalls, hJump, ih hRest⟩

theorem plot_append (h : Level inside base d first d₁) :
    plot d (first ++ second) = plot d first ++ plot d₁ second := by
  induction first generalizing d with
  | nil =>
    cases h
    rfl
  | cons _ _ ih => rw [cons_append, plot, plot, ih h.2.2.2, cons_append]

variable (h : Level inside base d code d₁)
include h

theorem entry : (plot d code).chart.entry (some d₁) = some d := by
  cases code with
  | nil =>
    cases h
    rfl
  | cons => rfl

theorem flows (outer : List String) :
    Flows inside base outer (plot d code).chart (some d₁) := by
  induction code generalizing d with
  | nil => exact .nil
  | cons _ _ ih =>
    rcases h with ⟨hSound, _, hJump, hRest⟩
    refine Flows.append (.single hSound ?_ ?_) (ih hRest)
    · intro _
      exact hRest.entry
    · intro _ hTo
      cases hJump.symm.trans hTo

theorem labelFirst (label : String) :
    Level inside base d (labelFirst label code) d₁ := by
  cases code with
  | nil => exact h
  | cons =>
    rcases h with ⟨hSound, hRest⟩
    exact ⟨⟨hSound.nonneg, hSound.ends, hSound.returns, hSound.pointer,
      hSound.symbol, hSound.moves⟩, hRest⟩

end Level

section Instructions

variable {i : Instruction}
  {inside : Bool} {base d : Int} {m : Mnemonic} {label : String}
  {operand : Listing.Operand} {mode : Mode}

theorem fallsThrough_of_general
    (hOp : i.op = .known m)
    (hForm : m.form = .general) :
    i.fallsThrough = true := by
  unfold Instruction.fallsThrough
  rw [hOp]
  cases m <;> first | rfl | cases hForm

theorem jumpsTo?_of_not_branch
    (hOp : i.op = .known m)
    (hForm : m.form ≠ .branch) :
    i.jumpsTo? = none := by
  cases hJump : i.jumpsTo? with
  | none => rfl
  | some =>
    rcases Instruction.jumpsTo?_eq_some hJump with ⟨_, hOp', _, hBranch, _⟩
    cases hOp.symm.trans hOp'
    exact absurd hBranch hForm

/- At the level of the locals operands may be symbols. -/
theorem level_quiet
    (hQuiet : Quiet m)
    (hDepth : 0 ≤ d)
    (hOperand : d = base ∨ ∃ value, operand = .number value) :
    Level inside base d [⟨label, .known m, operand, mode⟩] d := by
  have hForm := hQuiet.form
  have hFalls : (⟨label, .known m, operand, mode⟩ : Instruction).fallsThrough =
        true :=
    fallsThrough_of_general rfl hForm
  refine .single ⟨hDepth, .inl hFalls, ?_, ?_, ?_, ?_⟩ hFalls
    (jumpsTo?_of_not_branch rfl (by rw [hForm]; nofun)) ?_
  · intro hOp
    cases hOp
    cases hForm
  · intro hOp
    cases hOp
    cases hForm
  · intro _ _ _ hSymbol _
    rcases hOperand with hBase | ⟨_, hNumber⟩
    · exact hBase
    · cases hNumber.symm.trans hSymbol
  · rintro (hOp | hOp)
    · cases hOp
      exact absurd rfl hQuiet.sub
    · cases hOp
      exact absurd rfl hQuiet.add
  · rw [Instruction.sinks_of_ne rfl hQuiet.sub hQuiet.add, Int.add_zero]

/- An instruction without an operand that ends no stream. -/
theorem level_unary
    (hForm : m.form = .unary)
    (hFalls :
      (⟨label, .known m, .absent, .none⟩ : Instruction).fallsThrough = true)
    (hDepth : 0 ≤ d)
    (hPointer : m = .movspa → inside = true ∧ d = base) :
    Level inside base d [⟨label, .known m, .absent, .none⟩] d := by
  refine .single ⟨hDepth, .inl hFalls, ?_, ?_, ?_, ?_⟩ hFalls
    (jumpsTo?_of_not_branch rfl (by rw [hForm]; nofun)) ?_
  · intro hOp
    cases hOp
    cases hFalls
  · intro hOp
    cases hOp
    exact hPointer rfl
  · intro _ _ _ hSymbol
    cases hSymbol
  · rintro (hOp | hOp)
    · cases hOp
      cases hForm
    · cases hOp
      cases hForm
  · refine (Int.add_zero d).symm.trans (congrArg (d + ·) (Instruction.sinks_of_ne rfl ?_ ?_).symm)
    · rintro rfl
      cases hForm
    · rintro rfl
      cases hForm

theorem level_mark
    (hDepth : 0 ≤ d)
    (label : String) :
    Level inside base d [mark label] d :=
  level_unary rfl rfl hDepth nofun

theorem level_call
    (hDepth : 0 ≤ d)
    (target : String) :
    Level inside base d [.jump .call target] d := by
  refine .single ⟨hDepth, .inl rfl, nofun, nofun, ?_, ?_⟩ rfl rfl (Int.add_zero d).symm
  · intro _ _ hOp _ hForm
    cases hOp
    exact absurd rfl hForm
  · rintro (hOp | hOp)
    · cases hOp
    · cases hOp

/- The stack pointer is moved where there are bytes to move. -/
theorem level_adjustStack
    (hMove : m = .subsp ∨ m = .addsp)
    (hDepth : 0 ≤ d)
    (bytes : Int64) :
    Level inside base d (adjustStack m bytes) (d + if 0 < bytes.toInt then
          (Instruction.of m (.number bytes) .immediate).sinks
        else 0) := by
  have hForm : m.form = .general := by
    rcases hMove with rfl | rfl
    · rfl
    · rfl
  have hFalls : (Instruction.of m (.number bytes) .immediate).fallsThrough = true :=
    fallsThrough_of_general rfl hForm
  have hPositive : bytes > 0 ↔ 0 < bytes.toInt := Int64.lt_iff_toInt_lt
  unfold adjustStack
  simp only [hPositive]
  split
  · refine .single ⟨hDepth, .inl hFalls, ?_, ?_, ?_, ?_⟩ hFalls
      (jumpsTo?_of_not_branch rfl (by rw [hForm]; nofun)) rfl
    · intro hOp
      cases hOp
      cases hForm
    · intro hOp
      cases hOp
      cases hForm
    · intro _ _ _ hSymbol
      cases hSymbol
    · intro _
      exact ⟨bytes, rfl, rfl⟩
  · exact Int.add_zero d

theorem level_subsp
    (hDepth : 0 ≤ d)
    (bytes : Int64) :
    Level inside base d (adjustStack .subsp bytes) (d + max 0 bytes.toInt) := by
  have hLevel : Level inside base d (adjustStack .subsp bytes) _ :=
    level_adjustStack (.inl rfl) hDepth bytes
  have hBytes : max 0 bytes.toInt = if 0 < bytes.toInt then bytes.toInt else 0 := by
    omega
  rw [hBytes]
  exact hLevel

theorem level_addsp
    (hDepth : 0 ≤ d)
    (bytes : Int64) :
    Level inside base d (adjustStack .addsp bytes) (d - max 0 bytes.toInt) := by
  have hLevel : Level inside base d (adjustStack .addsp bytes) _ :=
    level_adjustStack (.inr rfl) hDepth bytes
  have hBytes : d - max 0 bytes.toInt = d + if 0 < bytes.toInt then -bytes.toInt else 0 := by
    omega
  rw [hBytes]
  exact hLevel

end Instructions

------------------------------------------------------------
-- Calls
------------------------------------------------------------

/- A function whose arguments can be counted in bytes. -/
def Signature.Countable (sig : Signature) : Prop :=
  2 * (sig.params.length + 1) < 2 ^ 63

variable {sig : Signature} {ctx : Context}

/- The bytes are those of the arguments and of the value. -/
theorem Signature.Countable.argBytes_eq (h : sig.Countable) :
    sig.argBytes.toInt =
      2 * sig.params.length + (if sig.hasReturn then 2 else 0) := by
  unfold Signature.Countable at h
  unfold Signature.argBytes
  split
  · rw [Int64.toInt_ofNat_of_lt h]
    omega
  · rw [Int64.toInt_ofNat_of_lt (by omega)]
    omega

/- The bytes that are given back before the value is loaded. -/
theorem Signature.Countable.argBytes_sub
    (h : sig.Countable)
    (hReturn : sig.hasReturn = true) :
    (sig.argBytes - 2).toInt = 2 * sig.params.length := by
  unfold Signature.Countable at h
  have hBytes : sig.argBytes - 2 = Int64.ofNat (2 * sig.params.length) := by
    unfold Signature.argBytes
    rw [if_pos hReturn, Nat.mul_succ, Int64.ofNat_add]
    exact Int64.add_sub_cancel _ _
  rw [hBytes, Int64.toInt_ofNat_of_lt (by omega)]
  omega

theorem Signature.base_nonneg (sig : Signature) :
    0 ≤ sig.base := Int.le_max_left 0 _

namespace Context

/- The level at which the code of a scope stands. -/
def base (ctx : Context) : Int := (ctx.function.map Signature.base).getD 0

theorem base_nonneg (ctx : Context) : 0 ≤ ctx.base := by
  unfold base
  cases ctx.function with
  | none => exact Int.le_refl 0
  | some sig => exact sig.base_nonneg

theorem base_of_function (h : ctx.function = some sig) :
    ctx.base = sig.base := by
  unfold base
  rw [h]
  rfl

/- Code that stands at this level and leaves it as it is. -/
def Keeps (ctx : Context) (code : Code) : Prop :=
  Level ctx.function.isSome ctx.base ctx.base code ctx.base

theorem keeps_nil (ctx : Context) : ctx.Keeps [] := (rfl : ctx.base = ctx.base)

theorem Keeps.append {first second : Code}
    (hFirst : ctx.Keeps first)
    (hSecond : ctx.Keeps second) :
    ctx.Keeps (first ++ second) :=
  Level.append hFirst hSecond

theorem keeps_quiet {m : Mnemonic}
    (ctx : Context)
    (hQuiet : Quiet m)
    (operand : Listing.Operand)
    (mode : Mode) :
    ctx.Keeps [.of m operand mode] :=
  level_quiet hQuiet ctx.base_nonneg (.inl rfl)

theorem keeps_scale (ctx : Context) :
    ctx.Keeps [scale] := level_unary rfl rfl ctx.base_nonneg nofun

end Context

/-
  A call sets the bytes of the arguments aside and gives all
  of them back, those of the value returned after its load.
-/
theorem transfer_keeps {callee : Callee}
    (ctx : Context)
    (hSig : callee.sig.Countable) :
    ctx.Keeps callee.transfer := by
  have hBytes := hSig.argBytes_eq
  have hBase := ctx.base_nonneg
  have hAdd : ∀ (d d' : Int) (bytes : Int64), 0 ≤ d → d' = d - max 0 bytes.toInt →
          Level ctx.function.isSome ctx.base d (adjustStack .addsp bytes) d' := by
    intro _ _ bytes hDepth hEq
    rw [hEq]
    exact level_addsp hDepth bytes
  refine ((level_subsp hBase callee.sig.argBytes).append
    (level_call (by omega) callee.label)).append ?_
  split
  · next hReturn =>
    have hLess := hSig.argBytes_sub hReturn
    rw [if_pos hReturn] at hBytes
    -- Two bytes are left when the value is loaded.
    have hLoad : Level ctx.function.isSome ctx.base (ctx.base + 2)
          [.of .ldwa (.number 0) .stackRelative] (ctx.base + 2) :=
      level_quiet (isRead_load .a).toQuiet (by omega) (.inr ⟨0, rfl⟩)
    have hTwo : Int64.toInt 2 = 2 := rfl
    exact ((hAdd _ _ _ (by omega) (by omega)).append hLoad).append
      (hAdd _ _ _ (by omega) (by omega))
  · exact hAdd _ _ _ (by omega) (by omega)

theorem Context.isSome_of_stackIndexed {name : String} {b : Binding}
    (h : ctx.mode name b = .stackIndexed) :
    ctx.function.isSome = true := by
  unfold Context.mode at h
  split at h
  · cases h
  · split at h
    · split at h
      · next hInside =>
        exact (Bool.and_eq_true_iff.mp hInside).1
      · cases h
    · split at h
      · cases h
      · cases h

/- The stack pointer is read in a function. -/
theorem Context.joined_keeps (ctx : Context) : Joined ctx ctx.Keeps := by
  refine .of_quiet ctx.keeps_nil Context.Keeps.append (ctx.keeps_quiet ·) ctx.keeps_scale
    fun hRef hMode => level_unary rfl rfl ctx.base_nonneg fun _ => ⟨?_, rfl⟩
  unfold Context.reference at hRef
  split at hRef
  · cases hRef
    exact Context.isSome_of_stackIndexed hMode
  · cases hRef

/- The functions that can be called have few arguments. -/
def Context.Countable (ctx : Context) : Prop :=
  ∀ sig ∈ ctx.functions, sig.Countable

theorem composed_keeps (hCalls : ctx.Countable) :
    Composed ctx fun _ => ctx.Keeps :=
  ctx.joined_keeps.composed id Context.Keeps.append (fun hQuiet _ _ => ctx.keeps_quiet hQuiet _ _)
    fun hCallee _ hStores =>
      hStores.append (transfer_keeps ctx (hCalls _ (callee_facts hCallee).mem))

end Compile

end Pep9
