import Pep9.Proofs.Compile.Passing

/-
  What the code of an expression is made from. The variables
  that occur in an expression have to be known; where one is
  not, the error names it. The numbers in the code are literals
  of the expression, or come from the functions that are called.

  Key theorems: `Reads.bind`, `exprCode_reads`,
  `conditionCode_reads`, `exprStmtCode_reads`.
-/

namespace Pep9

open List
open Isa (Mnemonic)
open Listing (Instruction Mode)
open Script (Expr)

variable {code : Code}

namespace Script

mutual

/- The literals, names and lists that occur in an expression. -/
def Expr.atoms : Expr → List Expr
  | .literal n => [.literal n]
  | .string s => [.string s]
  | .name id => [.name id]
  | .list elements => .list elements :: atomsOf elements
  | .arith _ left right => left.atoms ++ right.atoms
  | .compare left chain => left.atoms ++ chain.atoms
  | .logic _ left right => left.atoms ++ right.atoms
  | .unary _ operand => operand.atoms
  | .call _ args => atomsOf args
  | .index base position => base.atoms ++ position.atoms

/- Those of a chain of comparisons. -/
def Chain.atoms : Chain → List Expr
  | .last _ right => right.atoms
  | .link _ right rest => right.atoms ++ rest.atoms

/- Those of some expressions. -/
def atomsOf : List Expr → List Expr
  | [] => []
  | e :: rest => e.atoms ++ atomsOf rest

end

/- Those of the subscript that a value is assigned to, if it is one. -/
def Place.atoms (value : Expr) : Place → List Expr
  | .name _ => value.atoms
  | .element base position => base.atoms ++ (value.atoms ++ position.atoms)

end Script

namespace Compile

/-
  A result that depends on some atoms. It is there only if all
  names among them are known, and then has a property, provided
  that the literals have theirs. An error has no line yet, and
  a name that it reports as not defined is one of them and is
  not known.
-/
def Reads {α : Type} (P : Int64 → Prop) (ctx : Context) (atoms : List Expr)
    (Q : α → Prop) : Except Error α → Prop
  | .ok a =>
    (∀ id, .name id ∈ atoms → (ctx.table.lookup? id).isSome = true) ∧
      ((∀ n, .literal n ∈ atoms → P n) → Q a)
  | .error e =>
    e.line = 0 ∧
      ∀ id, e.cause = .undefinedName id → .name id ∈ atoms ∧ ctx.table.lookup? id = none

namespace Reads

variable {α β : Type} {P : Int64 → Prop} {ctx : Context} {p q : List Expr}
  {Q : α → Prop} {R : β → Prop} {x : Except Error α}

theorem pure {a : α}
    (h : Q a) :
    Reads P ctx [] Q (.ok a) := ⟨by simp, fun _ => h⟩

/- Other errors tell nothing about names. -/
theorem fails {cause : Cause}
    (h : ∀ id, cause ≠ .undefinedName id) :
    Reads P ctx p Q (.error (.of cause)) := ⟨rfl, fun id hCause => absurd hCause (h id)⟩

/- An error that depends on nothing. -/
theorem error {e : Error}
    (hX : Reads P ctx [] Q (.error e)) :
    Reads P ctx p R (.error e) :=
  ⟨hX.1, fun id hCause => absurd (hX.2 id hCause).1 not_mem_nil⟩

theorem bind {f : α → Except Error β}
    (hX : Reads P ctx p Q x)
    (hF : ∀ a, Reads P ctx q (fun b => Q a → R b) (f a)) :
    Reads P ctx (p ++ q) R (x >>= f) := by
  cases x with
  | error =>
    refine ⟨hX.1, fun id hCause => ?_⟩
    exact (hX.2 id hCause).imp_left (mem_append_left _)
  | ok a =>
    have hNext := hF a
    change Reads P ctx (p ++ q) R (f a)
    cases hResult : f a with
    | error =>
      rw [hResult] at hNext
      refine ⟨hNext.1, fun id hCause => ?_⟩
      exact (hNext.2 id hCause).imp_left (mem_append_right _)
    | ok =>
      rw [hResult] at hNext
      refine ⟨fun id hMem => ?_, fun hAll => ?_⟩
      · rcases mem_append.mp hMem with hMem | hMem
        · exact hX.1 id hMem
        · exact hNext.1 id hMem
      · exact hNext.2 (fun n hN => hAll n (mem_append_right _ hN))
          (hX.2 fun n hN => hAll n (mem_append_left _ hN))

/- A step behind that depends on nothing more. -/
theorem step {f : α → Except Error β}
    (hX : Reads P ctx p Q x)
    (hF : ∀ a, Reads P ctx [] (fun b => Q a → R b) (f a)) :
    Reads P ctx p R (x >>= f) := by
  rw [← append_nil p]
  exact hX.bind hF

/- A step before that depends on nothing. -/
theorem after {f : α → Except Error β}
    (hX : Reads P ctx [] Q x)
    (hF : ∀ a, Reads P ctx q (fun b => Q a → R b) (f a)) :
    Reads P ctx q R (x >>= f) := hX.bind hF

variable (hX : Reads P ctx p Q x)
include hX

theorem map {f : α → β}
    (hF : ∀ a, Q a → R (f a)) :
    Reads P ctx p R (x >>= fun a => .ok (f a)) := hX.step fun a => pure (hF a)

theorem mono {Q' : α → Prop}
    (h : ∀ a, Q a → Q' a) :
    Reads P ctx p Q' x := by
  cases x with
  | error => exact hX
  | ok a => exact ⟨hX.1, fun hAll => h a (hX.2 hAll)⟩

theorem property {a : α}
    (hA : x = .ok a)
    (hAll : ∀ n, .literal n ∈ p → P n) :
    Q a := by
  subst hA
  exact hX.2 hAll

end Reads

section Numbers

variable {P : Int64 → Prop} {ctx : Context} {sig : Signature}

/- All numbers that are operands have a property. -/
def Numbers (P : Int64 → Prop) (code : Code) : Prop :=
  ∀ i ∈ code, ∀ n, i.operand = .number n → P n

@[simp] theorem operand_of
    (m : Mnemonic)
    (operand : Listing.Operand)
    (mode : Mode) :
    (Instruction.of m operand mode).operand = operand := rfl

@[simp] theorem operand_plain (m : Mnemonic) :
    (Instruction.plain m).operand = .absent := rfl

@[simp] theorem operand_jump
    (m : Mnemonic)
    (target : String) :
    (Instruction.jump m target).operand = .symbol target := rfl

@[simp] theorem numbers_nil : Numbers P [] := by
  simp [Numbers]

@[simp] theorem numbers_cons {i : Instruction} :
    Numbers P (i :: code) ↔
      (∀ n, i.operand = .number n → P n) ∧ Numbers P code := forall_mem_cons

@[simp] theorem numbers_append {first second : Code} :
    Numbers P (first ++ second) ↔ Numbers P first ∧ Numbers P second := forall_mem_append

theorem numbers_labelFirst
    (label : String)
    (h : Numbers P code) :
    Numbers P (labelFirst label code) := by
  cases code with
  | nil => exact h
  | cons =>
    rw [numbers_cons] at h
    exact numbers_cons.mpr h

theorem numbers_adjustStack {m : Mnemonic} {bytes : Int64}
    (h : P bytes) :
    Numbers P (adjustStack m bytes) := by
  unfold adjustStack
  split
  · simpa using h
  · exact numbers_nil

/- The numbers that calls of a function need. -/
def Passes (P : Int64 → Prop) (sig : Signature) : Prop :=
  ∀ k ≤ sig.callBytes, P (Int64.ofNat k) ∧ P (-Int64.ofNat k)

theorem transfer_numbers {callee : Callee}
    (h : Passes P callee.sig) :
    Numbers P callee.transfer := by
  have hBytes := (h _ le_rfl).1
  rw [← Signature.argBytes_eq] at hBytes
  unfold Callee.transfer
  refine numbers_append.mpr ⟨numbers_append.mpr ⟨numbers_adjustStack hBytes, by simp⟩, ?_⟩
  split
  · next hReturn =>
    have hSize : callee.sig.callBytes = 2 * callee.sig.params.length + 2 := by
      unfold Signature.callBytes
      rw [if_pos hReturn]
    have hArgs := (h (2 * callee.sig.params.length) (by omega)).1
    have hNone : P 0 := (h 0 (Nat.zero_le _)).1
    have hWord : P 2 := (h 2 (by omega)).1
    rw [← Signature.argBytes_sub hReturn] at hArgs
    refine numbers_append.mpr ⟨numbers_append.mpr
      ⟨numbers_adjustStack hArgs, ?_⟩, numbers_adjustStack hWord⟩
    simpa using hNone
  · exact numbers_adjustStack hBytes

end Numbers

------------------------------------------------------------
-- Operands
------------------------------------------------------------

section Operands

variable {P : Int64 → Prop} {ctx : Context}

theorem reference_reads (id : String) :
    Reads P ctx [.name id] (fun _ => True) (ctx.reference id) := by
  unfold Context.reference
  split
  · next b hFound => simp [Reads, hFound]
  · next hNone =>
    refine ⟨rfl, ?_⟩
    rintro _ ⟨⟩
    exact ⟨mem_singleton_self _, hNone⟩

theorem dataTarget_reads (id : String) :
    Reads P ctx [.name id] (fun _ => True) (ctx.table.dataTarget id) := by
  unfold SymbolTable.dataTarget
  split
  · next b hFound => simp [Reads, SymbolTable.lookup?, hFound]
  · next hNone =>
    refine ⟨rfl, ?_⟩
    rintro _ ⟨⟩
    exact ⟨mem_singleton_self _, hNone⟩

theorem arrayReference_reads (base : Expr) :
    Reads P ctx base.atoms (fun _ => True) (ctx.arrayReference base) := by
  unfold Context.arrayReference
  split
  · next id =>
    refine (reference_reads id).step fun ref => ?_
    split
    · exact .pure fun _ => trivial
    · exact .fails (by rintro _ ⟨⟩)
  · exact .fails (by rintro _ ⟨⟩)

theorem checkWord_reads (n : Int64) :
    Reads P ctx [] (fun _ => True) (checkWord n) := by
  unfold checkWord
  split
  · exact .pure trivial
  · exact .fails nofun

theorem indexCode_reads (position : Expr) :
    Reads P ctx position.atoms (Numbers P) (ctx.indexCode position) := by
  unfold Context.indexCode
  split
  · next n =>
    refine (checkWord_reads _).after fun _ => ⟨by simp [Expr.atoms], ?_⟩
    simp [Expr.atoms, Context.scale]
  · next id =>
    refine (reference_reads id).step fun ref => ?_
    split
    · exact .fails nofun
    · refine .pure ?_
      simp [Context.scale]
  · exact .fails nofun

theorem elementCode_reads
    (m : Mnemonic)
    (base position : Expr) :
    Reads P ctx (base.atoms ++ position.atoms) (Numbers P) (ctx.elementCode m base position) := by
  refine (arrayReference_reads base).bind fun ref => ?_
  exact (indexCode_reads position).map fun offset hOffset _ => numbers_append.mpr ⟨hOffset, by simp⟩

theorem simple_reads {op : Register → Mnemonic} {r : Register} {e : Expr}
    {operand : Simple}
    (h : simple? e = some operand) :
    Reads P ctx e.atoms (Numbers P) (ctx.operandCode op r operand) := by
  cases e with
  | literal =>
    cases h
    refine (checkWord_reads _).after fun _ => ⟨by simp [Expr.atoms], ?_⟩
    simp [Expr.atoms]
  | name id =>
    cases h
    refine (reference_reads id).step fun ref => ?_
    split
    · exact .fails nofun
    · exact .pure (by simp)
  | index base position =>
    cases h
    rw [Context.operandCode]
    split
    · exact .fails nofun
    · exact elementCode_reads _ base position
  | _ => cases h

theorem callee_reads
    (name : String)
    (given : Nat) :
    Reads P ctx [] (fun callee =>
        callee.sig ∈ ctx.functions ∧ given = callee.sig.params.length)
      (ctx.callee name given) := by
  unfold Context.callee
  split
  · exact .fails nofun
  · next sig hSig =>
    have hMem : sig ∈ ctx.functions := mem_of_find?_eq_some hSig
    unfold SymbolTable.labelTarget
    split
    · change Reads P ctx [] _ (if _ then _ else _)
      split
      · next hGiven => exact .pure ⟨hMem, hGiven⟩
      · exact .fails nofun
    · exact .fails nofun

theorem nameArgument_reads {slot : Int64}
    (h : P slot)
    (id : String) :
    Reads P ctx [.name id] (Numbers P) (ctx.nameArgument slot id) := by
  refine (reference_reads id).step fun ref => ?_
  split <;> refine .pure fun _ => ?_ <;>
    simpa [Context.storeAt] using h

/- The places of arguments that follow each other. -/
theorem next_slot {k : Nat}
    (h : 2 ≤ k) :
    -Int64.ofNat k + 2 = -Int64.ofNat (k - 2) := by
  obtain ⟨_, rfl⟩ := Nat.exists_eq_add_of_le' h
  rw [Nat.add_sub_cancel, Int64.ofNat_add, Int64.neg_add]
  exact Int64.sub_add_cancel _ _

theorem callCode_reads {args : List Expr}
    (hCalls : ∀ sig ∈ ctx.functions, Passes P sig)
    (hArgs :
      ∀ k, (∀ j ≤ k, P (-Int64.ofNat j)) → 2 * args.length ≤ k →
        Reads P ctx (Script.atomsOf args) (Numbers P)
          (argsCode ctx (-Int64.ofNat k) args))
    (function : String) :
    Reads P ctx (Script.atomsOf args) (Numbers P) (callCode ctx function args) := by
  have hReads := @callee_reads P ctx function args.length
  unfold callCode
  cases hCallee : ctx.callee function args.length with
  | error =>
    rw [hCallee] at hReads
    exact hReads.error
  | ok callee =>
    rw [hCallee] at hReads
    rcases hReads.2 (by simp) with ⟨hMem, hGiven⟩
    have hPasses := hCalls _ hMem
    have hSlot : callee.firstSlot = -Int64.ofNat callee.sig.callBytes := by
      rw [← Signature.argBytes_eq]
      rfl
    change Reads P ctx _ _ (argsCode ctx callee.firstSlot args >>= _)
    rw [hSlot]
    refine (hArgs _ (fun j hJ => (hPasses j hJ).2) ?_).map fun stores hStores => ?_
    · rw [hGiven]
      exact Nat.le_add_right _ _
    · exact numbers_append.mpr ⟨hStores, transfer_numbers hPasses⟩

mutual

/- All names in an expression have to be known. -/
theorem exprCode_reads
    (hCalls : ∀ sig ∈ ctx.functions, Passes P sig)
    (r : Register)
    (e : Expr) :
    Reads P ctx e.atoms (Numbers P) (exprCode ctx r e) := by
  cases e with
  | literal | name | index =>
    rw [exprCode]
    exact simple_reads rfl
  | arith _ left =>
    rw [exprCode, Expr.atoms]
    split
    · exact .fails nofun
    · split
      · exact .fails nofun
      · next hSimple =>
        refine (exprCode_reads hCalls _ left).bind fun first => ?_
        exact (simple_reads hSimple).map fun second hSecond hFirst =>
          numbers_append.mpr ⟨hFirst, hSecond⟩
  | call function args =>
    unfold exprCode
    split
    · match args with
      | [arg] =>
        rw [Expr.atoms, Script.atomsOf, Script.atomsOf, append_nil]
        exact exprCode_reads hCalls .a arg
      | [] => exact .fails nofun
      | _ :: _ :: _ => exact .fails nofun
    · split
      · exact .fails nofun
      · split
        · exact .fails nofun
        · refine Reads.after (Q := fun _ => True) ?_ fun _ => ?_
          · unfold Context.checkReturns
            split
            · split
              · exact .pure trivial
              · exact .fails nofun
            · exact .pure trivial
          · refine Reads.mono ?_ fun _ h _ => h
            exact callCode_reads hCalls (fun _ => argsCode_reads hCalls args) function
  | unary | logic | compare | string | list =>
    rw [exprCode]
    exact .fails nofun

theorem argsCode_reads
    (hCalls : ∀ sig ∈ ctx.functions, Passes P sig)
    {k : Nat}
    (args : List Expr)
    (hSlots : ∀ j ≤ k, P (-Int64.ofNat j))
    (hRoom : 2 * args.length ≤ k) :
    Reads P ctx (Script.atomsOf args) (Numbers P) (argsCode ctx (-Int64.ofNat k) args) := by
  cases args with
  | nil =>
    rw [argsCode]
    exact .pure numbers_nil
  | cons arg rest =>
    rw [length_cons] at hRoom
    rw [argsCode_cons, Script.atomsOf, next_slot (by omega)]
    refine Reads.bind (Q := Numbers P) ?_ fun first => ?_
    · unfold Context.argument
      split
      · next id hName =>
        cases arg <;> cases hName
        exact nameArgument_reads (hSlots k le_rfl) id
      · split
        · exact .fails nofun
        · exact (exprCode_reads hCalls .a arg).map fun code hCode =>
            numbers_append.mpr ⟨hCode, by simpa [Context.storeAt] using hSlots k le_rfl⟩
    · refine (argsCode_reads hCalls rest (fun j hJ => hSlots j (by omega))
        (by omega)).map fun others hOthers hFirst => ?_
      exact numbers_append.mpr ⟨hFirst, hOthers⟩

end

theorem conditionCode_reads
    (label exit : String)
    (test : Expr) :
    Reads P ctx test.atoms (Numbers P) (ctx.conditionCode label exit test) := by
  unfold Context.conditionCode
  split
  · next left op right =>
    split
    · next hLeft hRight =>
      rw [Expr.atoms, Script.Chain.atoms]
      refine (simple_reads hLeft).bind fun first => ?_
      refine (simple_reads hRight).map fun second hSecond hFirst => ?_
      simp [numbers_labelFirst label hFirst, hSecond]
    · exact .fails nofun
  all_goals exact .fails nofun

end Operands

------------------------------------------------------------
-- Statements
------------------------------------------------------------

section Statements

variable {P : Int64 → Prop} {g : Generator}

/- What is read from the input depends on nothing. -/
theorem isInput_reads
    (ctx : Context)
    (e : Expr) :
    Reads P ctx [] (fun input => input = true → e.atoms = []) (isInput e) := by
  unfold isInput
  split
  · next function args =>
    split
    · next arg =>
      split
      · refine (isInput_reads ctx arg).mono fun input hInput hTrue => ?_
        rw [Expr.atoms, Script.atomsOf, Script.atomsOf, hInput hTrue]
        rfl
      · split
        · exact .fails (by rintro _ ⟨⟩)
        · exact .pure (by rintro ⟨⟩)
    · split
      · exact .pure (by rintro ⟨⟩)
      · split
        · next hNone =>
          refine .pure fun _ => ?_
          rw [Expr.atoms, List.isEmpty_iff.mp hNone, Script.atomsOf]
        · exact .fails (by rintro _ ⟨⟩)
  · exact .pure (by rintro ⟨⟩)

/- A value is read from the input, or computed. -/
theorem input_reads {α : Type} {Q : α → Prop} {value : Expr} {p : List Expr}
    {first second : Except Error α}
    (hInput : value.atoms = [] → Reads P g.context p Q first)
    (hOther : Reads P g.context p Q second) :
    Reads P g.context p Q (do if ← isInput value then first else second) := by
  have hReads := @isInput_reads P g.context value
  cases hCase : isInput value with
  | error =>
    rw [hCase] at hReads
    exact hReads.error
  | ok input =>
    rw [hCase] at hReads
    cases input with
    | true => exact hInput (hReads.2 (by simp) rfl)
    | false => exact hOther

variable (hCalls : ∀ sig ∈ g.context.functions, Passes P sig)
include hCalls

/- The functions that are known have to pass such numbers. -/
theorem storeCode_reads
    (name : String)
    (ref : Reference)
    (value : Expr) :
    Reads P g.context value.atoms (Numbers P) (g.storeCode name ref value) := by
  refine input_reads (fun hNone => ?_) ?_
  · rw [hNone]
    exact .pure (by simp)
  · exact (exprCode_reads hCalls _ value).map fun code hCode => numbers_append.mpr ⟨hCode, by simp⟩

theorem assignElement_reads (base position value : Expr) :
    Reads P g.context (base.atoms ++ (value.atoms ++ position.atoms))
      (Numbers P) (g.assignElement base position value) := by
  refine (arrayReference_reads base).bind fun ref => ?_
  refine input_reads (fun hNone => ?_) ?_
  · rw [hNone]
    exact (indexCode_reads position).map fun offset hOffset _ =>
      numbers_append.mpr ⟨hOffset, by simp⟩
  · refine (exprCode_reads hCalls .a value).bind fun code => ?_
    refine (indexCode_reads position).map fun offset hOffset hCode _ => ?_
    simp [hCode, hOffset]

theorem printValue_reads
    (hScratch : P (-2))
    (value : Expr) :
    Reads P g.context value.atoms (Numbers P) (g.printValue value) := by
  unfold Generator.printValue
  split
  · refine (checkWord_reads _).after fun _ => ⟨by simp [Expr.atoms], ?_⟩
    simp [Expr.atoms]
  · next id =>
    refine (reference_reads id).step fun ref => ?_
    split
    · exact .fails nofun
    · exact .pure (by simp)
  · exact elementCode_reads _ _ _
  · exact .fails nofun
  · refine (exprCode_reads hCalls .a _).map fun code hCode => ?_
    simpa [hCode, Generator.scratch] using hScratch

/- An expression for its effect alone. -/
theorem exprStmtCode_reads
    (hScratch : P (-2))
    (value : Expr) :
    Reads P g.context value.atoms (Numbers P) (g.exprStmtCode value) := by
  unfold Generator.exprStmtCode
  split
  · next function args =>
    unfold Generator.callStmtCode
    split
    · unfold Generator.printCode
      split
      · next arg =>
        rw [Expr.atoms, Script.atomsOf, Script.atomsOf, append_nil]
        exact printValue_reads hCalls hScratch arg
      · exact .fails (by rintro _ ⟨⟩)
    · split
      · split
        · next hNone =>
          rw [Expr.atoms, List.isEmpty_iff.mp hNone, Script.atomsOf]
          exact .pure (by simp)
        · exact .fails (by rintro _ ⟨⟩)
      · split
        · exact exprCode_reads hCalls .a _
        · rw [Expr.atoms]
          exact callCode_reads hCalls (fun _ => argsCode_reads hCalls args) _
  · exact .fails (by rintro _ ⟨⟩)

/- The place of the value that is returned has to be known, too. -/
theorem returnCode_reads
    (hLocals : ∀ sig ∈ g.context.function, P sig.localsSize)
    (value : Option Expr) :
    Reads P g.context (value.toList.flatMap fun e => e.atoms ++ [.name returnSource])
      (Numbers P) (g.returnCode value) := by
  unfold Generator.returnCode
  split
  · exact .fails nofun
  · next f hInside =>
    have hContext : g.context.table = f.table ∧ g.context.function = some f.sig := by
      unfold Generator.context
      rw [hInside]
      exact ⟨rfl, rfl⟩
    have hLeave : Numbers P (adjustStack .addsp f.sig.localsSize ++ [.plain .ret]) :=
      numbers_append.mpr ⟨numbers_adjustStack (hLocals _ hContext.2), by simp⟩
    cases value with
    | none => exact .pure hLeave
    | some e =>
      have hPlace : Reads P g.context [.name returnSource] (fun _ => True)
            (f.table.dataTarget returnSource) := by
        rw [← hContext.1]
        exact dataTarget_reads returnSource
      simp only [Option.toList_some, flatMap_singleton]
      refine (exprCode_reads hCalls .a e).bind fun code => ?_
      exact hPlace.map fun slot _ hCode => numbers_append.mpr
        ⟨numbers_append.mpr ⟨hCode, by simp⟩, hLeave⟩

end Statements

end Compile

end Pep9
