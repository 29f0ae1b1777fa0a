import Pep9.Proofs.Compile.Emission

/-
  Code as it is put together: the forms that the code of
  operands, arguments and statements without blocks has. What
  holds of its single instructions and of its calls, and stays
  when code is joined, holds of the code of all expressions,
  and of every statement without a block that comes to its end.

  Key theorems: `Joined.operand`, `Joined.exprCases`,
  `Joined.composed`, `Composed.plain`.
-/

namespace Pep9

open Result
open Isa (Mnemonic)
open Listing (Mode)
open Script (Expr Stmt)

variable {name : String} {ref : Reference} {field : Listing.Operand} {id : String}
  {m : Mnemonic} {mode : Mode} {r : Register} {slot : Int64}

namespace Compile

/- An instruction with an operand that leaves the stack as it is. -/
structure Quiet (m : Mnemonic) : Prop where
  form : m.form = .general
  sub : m ≠ .subsp
  add : m ≠ .addsp

/- Such an instruction that only reads its operand. -/
structure IsRead (m : Mnemonic) : Prop extends Quiet m where
  unwritten : m.writesOperand = false

theorem isRead_load (r : Register) : IsRead r.load := by
  cases r <;> exact ⟨⟨rfl, nofun, nofun⟩, rfl⟩

theorem isRead_compare (r : Register) : IsRead r.compare := by
  cases r <;> exact ⟨⟨rfl, nofun, nofun⟩, rfl⟩

theorem isRead_arith {op : Script.Arith} {apply : Register → Mnemonic}
    (h : arithOp? op = some apply)
    (r : Register) :
    IsRead (apply r) := by
  cases op <;> cases h <;> cases r <;> exact ⟨⟨rfl, nofun, nofun⟩, rfl⟩

theorem isRead_deco : IsRead .deco := ⟨⟨rfl, nofun, nofun⟩, rfl⟩

theorem quiet_store (r : Register) : Quiet r.store := by
  cases r <;> exact ⟨rfl, nofun, nofun⟩

theorem quiet_deci : Quiet .deci := ⟨rfl, nofun, nofun⟩

variable {ctx : Context} {g : Generator} {code : Code} {base position value : Expr}

/- The array of a subscript is a name that is indexed. -/
theorem arrayReference_eq_ok (h : ctx.arrayReference base = .ok ref) :
    ∃ id, base = .name id ∧ ctx.reference id = .ok ref ∧
      ref.mode.isIndexed = true := by
  unfold Context.arrayReference at h
  split at h
  · next id =>
    rcases seq h with ⟨_, hFound, h₁⟩
    split at h₁
    · next hMode =>
      cases h₁
      exact ⟨id, rfl, hFound, hMode⟩
    · cases h₁
  · cases h

/- A simple operand that is that of one instruction. -/
inductive Direct (ctx : Context) : Simple → Listing.Operand → Mode → Prop where
  | literal (n : Int64) : Direct ctx (.literal n) (.number n) .immediate
  | name {id : String} {ref : Reference} (hRef : ctx.reference id = .ok ref)
      (hPlain : ref.mode.isIndexed = false) : Direct ctx (.name id) (.symbol ref.target) ref.mode

theorem Direct.plain {operand : Simple}
    (h : Direct ctx operand field mode) :
    mode.isIndexed = false := by
  cases h with
  | literal => rfl
  | name _ hPlain => exact hPlain

/- The offset of an element is loaded and then doubled. -/
theorem indexCode_parts (h : ctx.indexCode position = .ok code) :
    ∃ operand field mode, simple? position = some operand ∧ Direct ctx operand field mode ∧
      code = [.of .ldwx field mode, Context.scale] := by
  unfold Context.indexCode at h
  split at h
  · rcases seq h with ⟨_, _, hDone⟩
    cases hDone
    exact ⟨_, _, _, rfl, .literal _, rfl⟩
  · rcases seq h with ⟨_, hRef, h₁⟩
    split at h₁
    · cases h₁
    · next hPlain =>
      cases h₁
      exact ⟨_, _, _, rfl, .name hRef (Bool.eq_false_iff.mpr hPlain), rfl⟩
  · cases h

/-
  The code of a simple operand ends with one instruction. There
  is code before it only for an element, which is read in the
  accumulator. All else is read in either register.
-/
inductive OperandParts (ctx : Context) (op : Register → Mnemonic) (r : Register) :
    Simple → Code → Prop where
  | direct {operand : Simple} {field : Listing.Operand} {mode : Mode}
      (hDirect : Direct ctx operand field mode)
      (hBoth : ∀ s, ctx.operandCode op s operand = .ok [.of (op s) field mode]) :
      OperandParts ctx op r operand [.of (op r) field mode]
  | element {base position : Expr} {ref : Reference} {offset : Code} (hOnly : r = .a)
      (hArray : ctx.arrayReference base = .ok ref)
      (hOffset : ctx.indexCode position = .ok offset) :
      OperandParts ctx op r (.element base position)
        (offset ++ [.of (op .a) (.symbol ref.target) ref.mode])

theorem operandCode_parts {op : Register → Mnemonic} {operand : Simple}
    (h : ctx.operandCode op r operand = .ok code) :
    OperandParts ctx op r operand code := by
  cases operand with
  | literal =>
    rcases seq h with ⟨_, hCheck, hDone⟩
    cases hDone
    exact .direct (.literal _) fun s => bind_eq_ok.mpr ⟨_, hCheck, rfl⟩
  | name =>
    rcases seq h with ⟨ref, hRef, h₁⟩
    split at h₁
    · cases h₁
    · next hPlain =>
      cases h₁
      exact .direct (.name hRef (Bool.eq_false_iff.mpr hPlain))
        fun s => bind_eq_ok.mpr ⟨ref, hRef, if_neg hPlain⟩
  | element =>
    cases r with
    | x => cases h
    | a =>
      rcases seq h with ⟨_, hArray, h₁⟩
      rcases seq h₁ with ⟨_, hOffset, hDone⟩
      cases hDone
      exact .element rfl hArray hOffset

/- A name as an argument: of an array the address is stored. -/
inductive NameParts (ctx : Context) (slot : Int64) (id : String) : Code → Prop where
  | base {ref : Reference} (hRef : ctx.reference id = .ok ref) (hMode : ref.mode = .indexed) :
      NameParts ctx slot id [.of .ldwa (.symbol ref.target) .immediate, Context.storeAt slot]
  | offset {ref : Reference} (hRef : ctx.reference id = .ok ref)
      (hMode : ref.mode = .stackIndexed) : NameParts ctx slot id
        [.plain .movspa, .of .adda (.symbol ref.target) .immediate, Context.storeAt slot]
  | pointer {ref : Reference} (hRef : ctx.reference id = .ok ref)
      (hMode : ref.mode = .stackDeferredIndexed) : NameParts ctx slot id
        [.of .ldwa (.symbol ref.target) .stackRelative, Context.storeAt slot]
  | word {ref : Reference} {r : Register} (hRegister : r = ctx.registerFor id)
      (hRef : ctx.reference id = .ok ref) (hPlain : ref.mode.isIndexed = false) :
      NameParts ctx slot id [.of r.load (.symbol ref.target) ref.mode,
        .of r.store (.number slot) .stackRelative]

theorem nameArgument_parts (h : ctx.nameArgument slot id = .ok code) :
    NameParts ctx slot id code := by
  rcases seq h with ⟨ref, hRef, h₁⟩
  split at h₁
  · next hMode =>
    cases h₁
    exact .base hRef hMode
  · next hMode =>
    cases h₁
    exact .offset hRef hMode
  · next hMode =>
    cases h₁
    exact .pointer hRef hMode
  · next hIndexed hStack hDeferred =>
    cases h₁
    refine .word rfl hRef ?_
    cases hMode : ref.mode with
    | indexed => exact absurd hMode hIndexed
    | stackIndexed => exact absurd hMode hStack
    | stackDeferredIndexed => exact absurd hMode hDeferred
    | _ => rfl

/- An assignment reads a number, or computes one and stores it. -/
inductive StoreParts (g : Generator) (name : String) (ref : Reference) (value : Expr) :
    Code → Prop where
  | read (hReads : isInput value = .ok true) :
      StoreParts g name ref value [.of .deci (.symbol ref.target) ref.mode]
  | computed {made : Code} (hReads : isInput value = .ok false)
      (hMade : exprCode g.context (g.context.registerFor name) value = .ok made) :
      StoreParts g name ref value (made ++
        [.of (resultRegister value (g.context.registerFor name)).store
          (.symbol ref.target) ref.mode])

theorem storeCode_parts (h : g.storeCode name ref value = .ok code) :
    StoreParts g name ref value code := by
  rcases seq h with ⟨reads, hReads, h₁⟩
  cases reads with
  | true =>
    cases h₁
    exact .read hReads
  | false =>
    rcases seq h₁ with ⟨_, hMade, hDone⟩
    cases hDone
    exact .computed hReads hMade

/- What the code of an assignment to an element is made of. -/
theorem assignElement_eq_ok
    (h : g.assignElement base position value = .ok code) :
    ∃ ref offset, g.context.arrayReference base = .ok ref ∧
        g.context.indexCode position = .ok offset ∧ (isInput value = .ok true ∧
            code = offset ++ [.of .deci (.symbol ref.target) ref.mode] ∨ isInput value = .ok false ∧
            ∃ computed, exprCode g.context .a value = .ok computed ∧ code = computed ++ offset
                    ++ [.of .stwa (.symbol ref.target) ref.mode]) := by
  rcases seq h with ⟨ref, hArray, h₁⟩
  rcases seq h₁ with ⟨reads, hReads, h₂⟩
  cases reads with
  | true =>
    rcases seq h₂ with ⟨offset, hOffset, hDone⟩
    cases hDone
    exact ⟨ref, offset, hArray, hOffset, .inl ⟨hReads, rfl⟩⟩
  | false =>
    rcases seq h₂ with ⟨computed, hComputed, h₃⟩
    rcases seq h₃ with ⟨offset, hOffset, hDone⟩
    cases hDone
    exact ⟨ref, offset, hArray, hOffset, .inr ⟨hReads, computed, hComputed, rfl⟩⟩

/- What is printed is an operand, or is stored and then printed. -/
inductive PrintParts (g : Generator) : Expr → Code → Prop where
  | direct {arg : Expr} {operand : Simple} {field : Listing.Operand} {mode : Mode}
      (hSimple : simple? arg = some operand) (hDirect : Direct g.context operand field mode) :
      PrintParts g arg [.of .deco field mode]
  | element {base position : Expr} {ref : Reference} {offset : Code}
      (hArray : g.context.arrayReference base = .ok ref)
      (hOffset : g.context.indexCode position = .ok offset) : PrintParts g (.index base position)
        (offset ++ [.of .deco (.symbol ref.target) ref.mode])
  | computed {arg : Expr} {made : Code} (hMade : exprCode g.context .a arg = .ok made) :
      PrintParts g arg (made ++ [.of .stwa Generator.scratch .stackRelative,
        .of .deco Generator.scratch .stackRelative])

theorem printValue_parts (h : g.printValue value = .ok code) :
    PrintParts g value code := by
  unfold Generator.printValue at h
  split at h
  · rcases seq h with ⟨_, _, hDone⟩
    cases hDone
    exact .direct rfl (.literal _)
  · rcases seq h with ⟨_, hRef, h₁⟩
    split at h₁
    · cases h₁
    · next hPlain =>
      cases h₁
      exact .direct rfl (.name hRef (Bool.eq_false_iff.mpr hPlain))
  · rcases seq h with ⟨_, hArray, h₁⟩
    rcases seq h₁ with ⟨_, hOffset, hDone⟩
    cases hDone
    exact .element hArray hOffset
  · cases h
  · rcases seq h with ⟨_, hMade, hDone⟩
    cases hDone
    exact .computed hMade

/- A statement that is a call. -/
inductive CallParts (g : Generator) : Expr → Code → Prop where
  | print {arg : Expr} {code : Code} (hParts : PrintParts g arg code) :
      CallParts g (.call "print" [arg]) code
  | exit : CallParts g (.call "exit" []) [.plain .stop]
  | builtin {function : String} {args : List Expr} {code : Code}
      (hName : function = "input" ∨ function = "int")
      (hMade : exprCode g.context .a (.call function args) = .ok code) :
      CallParts g (.call function args) code
  | call {function : String} {args : List Expr} {code : Code} (hPrint : function ≠ "print")
      (hExit : function ≠ "exit") (hBuiltin : ¬ (function = "input" ∨ function = "int"))
      (hMade : callCode g.context function args = .ok code) : CallParts g (.call function args) code

theorem exprStmtCode_parts (h : g.exprStmtCode value = .ok code) :
    CallParts g value code := by
  unfold Generator.exprStmtCode at h
  split at h
  · next function args =>
    unfold Generator.callStmtCode at h
    by_cases hPrint : function = "print"
    · rw [if_pos hPrint] at h
      unfold Generator.printCode at h
      split at h
      · rw [hPrint]
        exact .print (printValue_parts h)
      · cases h
    · rw [if_neg hPrint] at h
      by_cases hExit : function = "exit"
      · rw [if_pos hExit] at h
        split at h
        · next hNone =>
          cases h
          rw [hExit, List.isEmpty_iff.mp hNone]
          exact .exit
        · cases h
      · rw [if_neg hExit] at h
        split at h
        · next hName => exact .builtin hName h
        · next hName => exact .call hPrint hExit hName h
  · cases h

/- The value of a function is stored in its slot. -/
def storeValue : Option String → Code
  | none => []
  | some slot => [.of .stwa (.symbol slot) .stackRelative]

/-
  The end of a function: the value is stored, if there is one,
  the bytes of the locals are given back, and control returns.
-/
def Signature.leaving (sig : Signature) (slot : Option String) : Code :=
  storeValue slot ++ adjustStack .addsp sig.localsSize ++ [.plain .ret]

/- The code of a return, which ends a function. -/
inductive ReturnParts (g : Generator) (f : FunctionScope) : Option Expr → Code → Prop where
  | none : ReturnParts g f none (f.sig.leaving none)
  | some {e : Expr} {made : Code} {slot : String} (hMade : exprCode g.context .a e = .ok made)
      (hSlot : f.table.dataTarget returnSource = .ok slot) :
      ReturnParts g f (some e) (made ++ f.sig.leaving (some slot))

theorem returnCode_parts {value : Option Expr}
    (h : g.returnCode value = .ok code) :
    ∃ f, g.inside = some f ∧ g.context.function = some f.sig ∧ g.context.table = f.table ∧
      ReturnParts g f value code := by
  unfold Generator.returnCode at h
  split at h
  · cases h
  · next f hInside =>
    refine ⟨f, hInside, by simp [Generator.context, hInside],
      by simp [Generator.context, hInside], ?_⟩
    split at h
    · cases h
      exact .none
    · rcases seq h with ⟨_, hMade, h₁⟩
      rcases seq h₁ with ⟨_, hSlot, hDone⟩
      cases hDone
      rw [List.append_assoc]
      exact .some hMade hSlot

------------------------------------------------------------
-- Calls of the Source
------------------------------------------------------------

/- A call of a function, as the source has it. -/
structure Call where
  function : String
  args : List Expr

/-
  The calls of functions in an expression, from left to right.
  What is built in has one argument at most, and an argument of
  another function has no calls in it.
-/
def callsIn : Expr → List Call
  | .call function args =>
    if function ∈ builtins then
      match args with
      | [arg] => callsIn arg
      | _ => []
    else
      [⟨function, args⟩]
  | .arith _ left right => callsIn left ++ callsIn right
  | _ => []

theorem callsIn_of_defined {function : String}
    (args : List Expr)
    (h : function ∉ builtins) :
    callsIn (.call function args) = [⟨function, args⟩] := by
  unfold callsIn
  rw [if_neg h]

theorem callsIn_of_simple {e : Expr} {operand : Simple}
    (h : simple? e = some operand) :
    callsIn e = [] := by
  cases e <;> first | rfl | cases h

/- What reads a number calls no function. -/
theorem callsIn_of_isInput (h : isInput value = .ok true) :
    callsIn value = [] := by
  fun_induction isInput value with
  | case1 _ ih => exact ih h
  | case5 _ _ hInput hNone =>
    rw [List.isEmpty_iff.mp hNone, Decidable.not_not.mp hInput]
    simp [callsIn, builtins]
  | _ => simp_all

/- The calls in the expression of a statement without a block. -/
def ownCalls : Stmt → List Call
  | .assign _ _ _ value => callsIn value
  | .expr _ value => callsIn value
  | .ret _ (some value) => callsIn value
  | _ => []

namespace Generator

/- Whether an assignment has no code, as its value is declared. -/
def leavesOut (g : Generator) : Stmt → Bool
  | .assign _ (.name name) _ _ =>
    (g.context.reference name).toOption.any fun ref => g.context.table.isSpecial ref.target
  | _ => false

/- The calls that the code of such a statement makes. -/
def calls (g : Generator) (stmt : Stmt) : List Call :=
  if g.leavesOut stmt then [] else ownCalls stmt

theorem calls_assign
    (hRef : g.context.reference name = .ok ref)
    (line : Int)
    (others : List Script.Place) :
    g.calls (.assign line (.name name) others value) =
      if g.context.table.isSpecial ref.target then [] else callsIn value := by
  rw [calls, leavesOut, hRef]
  rfl

end Generator

/-
  A property of what the code of expressions is made of, and of
  what is joined. The last three pieces store the address of an
  array as an argument.
-/
structure Joined (ctx : Context) (P : Code → Prop) : Prop where
  nil : P []
  append : ∀ {first second}, P first → P second → P (first ++ second)
  literal : ∀ {m}, IsRead m → ∀ value, P [.of m (.number value) .immediate]
  slot : ∀ {m}, Quiet m → ∀ value, P [.of m (.number value) .stackRelative]
  read : ∀ {m id ref}, IsRead m → ctx.reference id = .ok ref →
      P [.of m (.symbol ref.target) ref.mode]
  scale : P [Context.scale]
  base : ∀ {id ref}, ctx.reference id = .ok ref → ref.mode = .indexed →
      ∀ slot, P [.of .ldwa (.symbol ref.target) .immediate, Context.storeAt slot]
  offset : ∀ {id ref}, ctx.reference id = .ok ref → ref.mode = .stackIndexed →
      P [.plain .movspa, .of .adda (.symbol ref.target) .immediate]
  pointer : ∀ {id ref}, ctx.reference id = .ok ref → ref.mode = .stackDeferredIndexed →
      P [.of .ldwa (.symbol ref.target) .stackRelative]

variable {P : Code → Prop} {Q : List Call → Code → Prop}

namespace Joined

/- A property of quiet instructions, whatever their operands. -/
theorem of_quiet
    (hNil : P [])
    (hAppend : ∀ {first second}, P first → P second → P (first ++ second))
    (hQuiet : ∀ {m}, Quiet m → ∀ operand mode, P [.of m operand mode])
    (hScale : P [Context.scale])
    (hPointer : ∀ {id ref}, ctx.reference id = .ok ref → ref.mode = .stackIndexed →
      P [.plain .movspa]) :
    Joined ctx P where
  nil := hNil
  append := hAppend
  literal := fun hRead _ => hQuiet hRead.toQuiet _ _
  slot := fun h _ => hQuiet h _ _
  read := fun hRead _ => hQuiet hRead.toQuiet _ _
  scale := hScale
  base := fun _ _ _ => hAppend (hQuiet (isRead_load .a).toQuiet _ _) (hQuiet (quiet_store .a) _ _)
  offset := fun hRef hMode =>
    hAppend (hPointer hRef hMode) (hQuiet (@isRead_arith .add _ rfl .a).toQuiet _ _)
  pointer := fun _ _ => hQuiet (isRead_load .a).toQuiet _ _

variable (hP : Joined ctx P)
include hP

theorem direct {operand : Simple}
    (hRead : IsRead m)
    (h : Direct ctx operand field mode) :
    P [.of m field mode] := by
  cases h with
  | literal n => exact hP.literal hRead n
  | name hRef => exact hP.read hRead hRef

theorem index (h : ctx.indexCode position = .ok code) : P code := by
  rcases indexCode_parts h with ⟨_, _, _, _, hDirect, rfl⟩
  exact hP.append (hP.direct (isRead_load .x) hDirect) hP.scale

theorem element {offset : Code}
    (hRead : IsRead m)
    (hArray : ctx.arrayReference base = .ok ref)
    (hOffset : ctx.indexCode position = .ok offset) :
    P (offset ++ [.of m (.symbol ref.target) ref.mode]) := by
  rcases arrayReference_eq_ok hArray with ⟨_, _, hRef, _⟩
  exact hP.append (hP.index hOffset) (hP.read hRead hRef)

theorem operand {op : Register → Mnemonic} {operand : Simple}
    (hRead : ∀ r, IsRead (op r))
    (h : ctx.operandCode op r operand = .ok code) :
    P code := by
  cases operandCode_parts h with
  | direct hDirect => exact hP.direct (hRead r) hDirect
  | element _ hArray hOffset => exact hP.element (hRead .a) hArray hOffset

theorem nameArgument (h : ctx.nameArgument slot id = .ok code) : P code := by
  cases nameArgument_parts h with
  | base hRef hMode => exact hP.base hRef hMode slot
  | offset hRef hMode => exact hP.append (hP.offset hRef hMode) (hP.slot (quiet_store .a) slot)
  | pointer hRef hMode => exact hP.append (hP.pointer hRef hMode) (hP.slot (quiet_store .a) slot)
  | word _ hRef => exact hP.append (hP.read (isRead_load _) hRef) (hP.slot (quiet_store _) slot)

/-
  What all code has that is made of such pieces and of calls.
  Arguments have no calls in them.
-/
theorem exprCases
    (hOf : ∀ {code}, P code → Q [] code)
    (hJoin : ∀ {calls more first second}, Q calls first → Q more second →
      Q (calls ++ more) (first ++ second))
    (hCall : ∀ {function args callee stores}, ctx.callee function args.length = .ok callee →
      argsCode ctx callee.firstSlot args = .ok stores → P stores →
        Q [⟨function, args⟩] (stores ++ callee.transfer)) :
    ExprCases ctx (fun _ e code => Q (callsIn e) code ∧ (hasCall e = false → P code))
      (fun _ _ code => P code) where
  literal := fun h => ⟨hOf (hP.operand isRead_load h), fun _ => hP.operand isRead_load h⟩
  name := fun h => ⟨hOf (hP.operand isRead_load h), fun _ => hP.operand isRead_load h⟩
  element := fun h => ⟨hOf (hP.operand isRead_load h), fun _ => hP.operand isRead_load h⟩
  arith := by
    intro _ _ _ _ _ _ _ _ hOp hSimple hFirst h
    have hSecond := hP.operand (isRead_arith hOp) h
    rw [callsIn, callsIn_of_simple hSimple]
    refine ⟨hJoin hFirst.1 (hOf hSecond), fun hCalls => ?_⟩
    rw [hasCall, Bool.or_eq_false_iff] at hCalls
    exact hP.append (hFirst.2 hCalls.1) hSecond
  int := fun h => ⟨h.1, nofun⟩
  call := fun hDefined _ hCallee hStores hArgs => by
    rw [callsIn_of_defined _ hDefined]
    exact ⟨hCall hCallee hStores hArgs, nofun⟩
  noArgs := hP.nil
  nameArg := fun hFirst hOthers => hP.append (hP.nameArgument hFirst) hOthers
  valueArg := fun hCalls hFirst hOthers =>
    hP.append (hP.append (hFirst.2 hCalls) (hP.slot (quiet_store .a) _)) hOthers

end Joined

/-
  Such a property that also writes, expressions and calls have,
  with the calls of the source.
-/
structure Composed (ctx : Context) (Q : List Call → Code → Prop) : Prop
    extends Joined ctx (Q []) where
  join : ∀ {calls more first second}, Q calls first → Q more second →
      Q (calls ++ more) (first ++ second)
  write : ∀ {m id ref}, Quiet m → ctx.reference id = .ok ref →
      isConstantName id = false ∨ ref.mode.isIndexed = true →
      Q [] [.of m (.symbol ref.target) ref.mode]
  expr : ∀ {r e code}, exprCode ctx r e = .ok code → Q (callsIn e) code
  call : ∀ {function args code}, callCode ctx function args = .ok code →
      Q [⟨function, args⟩] code

/- A property of pieces, and one that calls have as well. -/
theorem Joined.composed
    (hP : Joined ctx P)
    (hOf : ∀ {code}, P code → Q [] code)
    (hJoin : ∀ {calls more first second}, Q calls first → Q more second →
      Q (calls ++ more) (first ++ second))
    (hWrite : ∀ {m id ref}, Quiet m → ctx.reference id = .ok ref →
      isConstantName id = false ∨ ref.mode.isIndexed = true →
      Q [] [.of m (.symbol ref.target) ref.mode])
    (hCall : ∀ {function args callee stores}, ctx.callee function args.length = .ok callee →
      argsCode ctx callee.firstSlot args = .ok stores → P stores →
        Q [⟨function, args⟩] (stores ++ callee.transfer)) :
    Composed ctx Q where
  nil := hOf hP.nil
  append := hJoin
  join := hJoin
  literal := fun hRead value => hOf (hP.literal hRead value)
  slot := fun hQuiet value => hOf (hP.slot hQuiet value)
  read := fun hRead hRef => hOf (hP.read hRead hRef)
  scale := hOf hP.scale
  base := fun hRef hMode slot => hOf (hP.base hRef hMode slot)
  offset := fun hRef hMode => hOf (hP.offset hRef hMode)
  pointer := fun hRef hMode => hOf (hP.pointer hRef hMode)
  write := hWrite
  expr := fun h => ((hP.exprCases hOf hJoin hCall).expr h).1
  call := by
    intro _ _ _ h
    rcases seq h with ⟨_, hCallee, h₁⟩
    rcases seq h₁ with ⟨_, hStores, hDone⟩
    cases hDone
    exact hCall hCallee hStores ((hP.exprCases hOf hJoin hCall).args hStores)

namespace Composed

/- An expression, and more code without calls. -/
theorem followed {calls : List Call} {first second : Code}
    (hQ : Composed ctx Q)
    (hFirst : Q calls first)
    (hSecond : Q [] second) :
    Q calls (first ++ second) := by
  have hBoth := hQ.join hFirst hSecond
  rwa [List.append_nil] at hBoth

variable (hQ : Composed g.context Q)
include hQ

theorem store
    (hRef : g.context.reference name = .ok ref)
    (hConstant : isConstantName name = false)
    (h : g.storeCode name ref value = .ok code) :
    Q (callsIn value) code := by
  cases storeCode_parts h with
  | read hReads =>
    rw [callsIn_of_isInput hReads]
    exact hQ.write quiet_deci hRef (.inl hConstant)
  | computed _ hMade =>
    exact hQ.followed (hQ.expr hMade) (hQ.write (quiet_store _) hRef (.inl hConstant))

theorem assignElement (h : g.assignElement base position value = .ok code) :
    Q (callsIn value) code := by
  rcases assignElement_eq_ok h with ⟨_, _, hArray, hOffset, hForm⟩
  rcases arrayReference_eq_ok hArray with ⟨_, _, hRef, hMode⟩
  rcases hForm with ⟨hReads, rfl⟩ | ⟨_, _, hMade, rfl⟩
  · rw [callsIn_of_isInput hReads]
    exact hQ.append (hQ.index hOffset) (hQ.write quiet_deci hRef (.inr hMode))
  · exact hQ.followed (hQ.followed (hQ.expr hMade) (hQ.index hOffset))
      (hQ.write (quiet_store .a) hRef (.inr hMode))

theorem print (h : PrintParts g value code) :
    Q (callsIn value) code := by
  cases h with
  | direct hSimple hDirect =>
    rw [callsIn_of_simple hSimple]
    exact hQ.direct isRead_deco hDirect
  | element hArray hOffset => exact hQ.element isRead_deco hArray hOffset
  | computed hMade =>
    exact hQ.followed (hQ.expr hMade)
      (hQ.append (hQ.slot (quiet_store .a) (-2)) (hQ.slot isRead_deco.toQuiet (-2)))

end Composed

/- The code of a statement without a block: it is passed, stops or returns. -/
inductive PlainParts (Q : List Call → Code → Prop) (g : Generator) : Stmt → Code → Prop where
  | through {stmt : Stmt} {code : Code} (hCode : Q (g.calls stmt) code)
      (hReturn : endsWithReturn [stmt] = false) (hExit : endsWithExit [stmt] = false) :
      PlainParts Q g stmt code
  | stop {line : Int} : PlainParts Q g (.expr line (.call "exit" [])) [.plain .stop]
  | ret {line : Int} {result : Option Expr} {code : Code} {f : FunctionScope}
      (hInside : g.inside = some f) (hFunction : g.context.function = some f.sig)
      (hTable : g.context.table = f.table) (hParts : ReturnParts g f result code) :
      PlainParts Q g (.ret line result) code

/- A simple statement is composed of the pieces. -/
theorem Composed.plain {g' : Generator} {stmt : Stmt}
    (hQ : Composed g.context Q)
    (h : Plain g stmt code g') :
    PlainParts Q g stmt code := by
  cases h with
  | pass => exact .through hQ.nil rfl rfl
  | elided hRef hSpecial =>
    refine .through ?_ rfl rfl
    rw [Generator.calls_assign hRef, if_pos hSpecial]
    exact hQ.nil
  | stored hRef hSpecial hConstant _ hCode =>
    refine .through ?_ rfl rfl
    rw [Generator.calls_assign hRef, if_neg (Bool.eq_false_iff.mp hSpecial)]
    exact hQ.store hRef hConstant hCode
  | element hCode => exact .through (hQ.assignElement hCode) rfl rfl
  | expr hCode =>
    cases exprStmtCode_parts hCode with
    | print hParts =>
      have hPrinted := hQ.print hParts
      exact .through hPrinted rfl rfl
    | exit => exact .stop
    | builtin hName hMade =>
      refine .through (hQ.expr hMade) rfl (decide_eq_false ?_)
      rcases hName with rfl | rfl <;> decide
    | @call function _ _ hPrint hExit hBuiltin hMade =>
      refine .through ?_ rfl (decide_eq_false hExit)
      have hDefined : function ∉ builtins := by
        simp [builtins, hPrint, hExit, not_or.mp hBuiltin]
      change Q (callsIn _) _
      rw [callsIn_of_defined _ hDefined]
      exact hQ.call hMade
  | ret hCode =>
    rcases returnCode_parts hCode with ⟨_, hInside, hFunction, hTable, hParts⟩
    exact .ret hInside hFunction hTable hParts

end Compile

end Pep9
