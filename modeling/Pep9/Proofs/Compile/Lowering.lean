import Pep9.Proofs.Compile.Evaluation

/-
  The code of scripts without functions and arrays. Each
  statement has code of a fixed form, in which only the places
  of variables and the labels are open. An assignment has no
  code when it is the first one to its variable and the value
  is declared.

  Key theorems: `Plain.lowers`, `Emits.lowers`.
-/

namespace Pep9

open List
open Listing (Mode)
open Script (Expr Stmt Store Assignment wordOf firstAssignment? assignments declared Place isScalar)

variable {a : Assignment}

namespace Compile

/- The variables whose first assignment is still to come. -/
abbrev Pending := String → Prop

/- The code that computes a value in the accumulator. -/
inductive Computes (place : Sites) (e : Expr) (code : Code) : Prop where
  | of {ctx : Context} (hPlace : ctx.place = place) (hScalar : e.isScalar = true)
      (hCalls : callsDefined e = false) (hMade : exprCode ctx .a e = .ok code)

/-
  The code of a condition, with its label and the label to
  which it branches when the condition does not hold.
-/
inductive Tests (place : Sites) (start exit : String) (e : Expr) (code : Code) : Prop where
  | of {ctx : Context} (hPlace : ctx.place = place) (hScalar : e.isScalar = true)
      (hMade : ctx.conditionCode start exit e = .ok code)

mutual

/-
  The code of a statement, between the variables that are
  pending before it and those that are pending behind it.
-/
inductive LowersStmt (place : Sites)
    (declared : Store) : Pending → Stmt → Code → Pending → Prop where
  | pass {pending : Pending} (line : Int) :
      LowersStmt place declared pending (.pass line) [] pending
  | elided {pending : Pending} {line : Int} {x : String} {v : Int64} (hPending : pending x)
      (hValue : declared x = wordOf v) : LowersStmt place declared pending
        (.assign line (.name x) [] (.literal v)) [] (fun y => pending y ∧ y ≠ x)
  | stored {pending : Pending} {line : Int} {x : String} {value : Expr}
      {ref : Reference} {code : Code} (hFree : ¬ pending x) (hPlace : place x = some ref)
      (hMode : ref.mode = .direct) (hInput : value.readsInput = false)
      (hCode : Computes place value code) : LowersStmt place declared pending
        (.assign line (.name x) [] value)
        (code ++ [.of .stwa (.symbol ref.target) ref.mode]) pending
  | read {pending : Pending} {line : Int} {x : String} {value : Expr} {ref : Reference}
      (hFree : ¬ pending x) (hPlace : place x = some ref) (hMode : ref.mode = .direct)
      (hInput : value.readsInput = true) : LowersStmt place declared pending
        (.assign line (.name x) [] value) [.of .deci (.symbol ref.target) ref.mode] pending
  | printOperand {pending : Pending} {line : Int} {arg : Expr} {ctx : Context} {operand : Simple}
      {field : Listing.Operand} {mode : Mode} (hPlace : ctx.place = place)
      (hScalar : arg.isScalar = true) (hSimple : simple? arg = some operand)
      (hDirect : Direct ctx operand field mode) : LowersStmt place declared pending
        (.expr line (.call "print" [arg])) [.of .deco field mode] pending
  | printValue {pending : Pending} {line : Int} {arg : Expr} {code : Code}
      (hArg : Computes place arg code) : LowersStmt place declared pending
        (.expr line (.call "print" [arg])) (code ++ [.of .stwa Generator.scratch .stackRelative,
          .of .deco Generator.scratch .stackRelative]) pending
  | value {pending : Pending} {line : Int} {function : String} {args : List Expr} {code : Code}
      (hExit : function ≠ "exit") (hCode : Computes place (.call function args) code) :
      LowersStmt place declared pending (.expr line (.call function args)) code pending
  | exit {pending : Pending} (line : Int) :
      LowersStmt place declared pending (.expr line (.call "exit" [])) [.plain .stop] pending
  | loop {pending : Pending} {line : Int} {test : Expr}
      {body : List Stmt} {start exit : String} {condition code : Code} (hStart : start ≠ "")
      (hExit : exit ≠ "") (hTest : Tests place start exit test condition)
      (hBody : Lowers place declared pending body code pending) :
      LowersStmt place declared pending (.loop line test body)
        (condition ++ code ++ [.jump .br start, mark exit]) pending
  | cond {pending after : Pending} {line : Int} {test : Expr}
      {body : List Stmt} {start exit : String} {condition code : Code} (hExit : exit ≠ "")
      (hTest : Tests place start exit test condition)
      (hBody : Lowers place declared pending body code after) (hAfter : ∀ x, after x → pending x) :
      LowersStmt place declared pending (.cond line test body [])
        (condition ++ code ++ [.jump .br exit, mark exit]) after
  | condElse {pending between after : Pending} {line : Int} {test : Expr}
      {body orElse : List Stmt} {start exit other : String} {condition code elseCode : Code}
      (hExit : exit ≠ "") (hOther : other ≠ "") (hTest : Tests place start other test condition)
      (hBody : Lowers place declared pending body code between)
      (hOrElse : Lowers place declared between orElse elseCode after)
      (hBetween : ∀ x, between x → pending x) (hAfter : ∀ x, after x → between x) :
      LowersStmt place declared pending (.cond line test body orElse)
        (condition ++ code ++ [.jump .br exit, mark other] ++ elseCode ++ [mark exit]) after

/- The code of the statements of a block, one after another. -/
inductive Lowers (place : Sites) (declared : Store) :
    Pending → List Stmt → Code → Pending → Prop where
  | nil (pending : Pending) : Lowers place declared pending [] [] pending
  | cons {pending between after : Pending} {stmt : Stmt} {rest : List Stmt} {first others : Code}
      (hFirst : LowersStmt place declared pending stmt first between)
      (hRest : Lowers place declared between rest others after) :
      Lowers place declared pending (stmt :: rest) (first ++ others) after

end

variable {ctx : Context} {ref : Reference} {x : String} {code : Code} {e : Expr}

/- No function is known, and no variable is an index. -/
structure Context.Scalar (ctx : Context) : Prop where
  slicing : ctx.slicing = []
  functions : ctx.functions = []

namespace Context.Scalar

variable (hCtx : ctx.Scalar)
include hCtx

/- No name has a register of its own. -/
theorem registerFor (x : String) : ctx.registerFor x = .a := by
  unfold Context.registerFor
  rw [hCtx.slicing]
  rfl

/- There are no functions to call. -/
theorem callee {function : String} {given : Nat} {callee : Callee} :
    ctx.callee function given ≠ .ok callee := by
  unfold Context.callee Context.signature?
  rw [hCtx.functions]
  nofun

theorem callsDefined {r : Register}
    (h : exprCode ctx r e = .ok code) :
    callsDefined e = false := by
  have cases : ExprCases ctx (fun _ e _ => Compile.callsDefined e = false) fun _ _ _ => True := by
    refine {
      literal := fun _ => rfl, name := fun _ => rfl, element := fun _ => rfl, arith := ?_,
      int := id, call := ?_, noArgs := trivial,
      nameArg := fun _ _ => trivial,
      valueArg := fun _ _ _ => trivial }
    · intro _ _ _ right _ _ _ _ _ hSimple hLeft _
      rw [Compile.callsDefined, hLeft]
      cases right <;> cases hSimple <;> rfl
    · intro _ _ _ _ _ _ _ hCallee
      exact absurd hCallee hCtx.callee
  exact cases.expr h

/- Without functions, all code of expressions computes. -/
theorem computes
    (hScalar : e.isScalar = true)
    (h : exprCode ctx .a e = .ok code) :
    Computes ctx.place e code :=
  .of rfl hScalar (hCtx.callsDefined h) h

end Context.Scalar

/- The variables whose mark is still in the table. -/
def Generator.pending (g : Generator) : Pending :=
  fun x =>
    ∃ ref, g.context.place x = some ref ∧ g.table.isSpecial ref.target = true

/- A start from which only variables are in sight. -/
structure Scalars (g : Generator) : Prop where
  outside : g.inside = none
  slicing : g.slicing = []
  functions : g.functions = []
  mode : ∀ x ref, g.context.place x = some ref → isConstantName x = false → ref.mode = .direct
  distinct : ∀ x y ref ref', g.context.place x = some ref →
      g.context.place y = some ref' → ref.target = ref'.target → x = y

/- What a reference is depends on what is alike. -/
theorem Alike.place_eq {ctx' : Context}
    (h : Alike ctx ctx') :
    ctx'.place = ctx.place := by
  funext x
  unfold Context.place Context.reference SymbolTable.lookup? Context.mode Context.isParam
  rw [h.data, h.function, h.arrays]

/-
  A position in a script: some assignments are before it, and
  those of all pending variables are behind it.
-/
structure Reached (root : List Stmt) (start : Generator)
    (done : List Assignment) (g : Generator) : Prop where
  steady : Steady start g
  fresh : ∀ x, g.pending x → ∀ a ∈ done, a.name ≠ x
  known : ∀ x, g.pending x → ∃ a, firstAssignment? root x = some a ∧
        a.value.literal?.isSome = true

namespace Reached

variable {root : List Stmt} {start g g' : Generator} {done : List Assignment}

variable (h : Reached root start done g)
include h

theorem outside (hStart : Scalars start) : g.inside = none := by
  have hInside := h.steady.inside.isSome_eq
  rw [hStart.outside] at hInside
  exact Option.isNone_iff_eq_none.mp (Option.isSome_eq_false_iff.mp hInside)

theorem place_eq : g.context.place = start.context.place :=
  h.steady.alike.place_eq

theorem scalar (hStart : Scalars start) :
    g.context.Scalar := by
  unfold Generator.context
  rw [h.outside hStart]
  exact ⟨h.steady.slicing.trans hStart.slicing, h.steady.functions.trans hStart.functions⟩

theorem table_eq (hStart : Scalars start) :
    g.context.table = g.table := by
  unfold Generator.context
  rw [h.outside hStart]

/- The same position in a state with the same marks. -/
theorem of_special
    (hSteady : Steady g g')
    (hSpecial : g'.table.special = g.table.special) :
    Reached root start done g' ∧ g'.pending = g.pending := by
  have hPending : g'.pending = g.pending := by
    unfold Generator.pending SymbolTable.isSpecial
    rw [hSteady.alike.place_eq, hSpecial]
  refine ⟨⟨h.steady.trans hSteady, ?_, ?_⟩, hPending⟩
  · rw [hPending]
    exact h.fresh
  · rw [hPending]
    exact h.known

/- What is pending is first set at the next assignment to it. -/
theorem first {later : List Assignment}
    (hRoot : assignments false root = done ++ a :: later)
    (hPending : g.pending a.name) :
    firstAssignment? root a.name = some a := by
  unfold firstAssignment?
  rw [hRoot, find?_append]
  have hNone : done.find? (fun b => decide (b.name = a.name)) = none := by
    rw [find?_eq_none]
    intro b hB
    simpa using h.fresh a.name hPending b hB
  rw [hNone]
  simp

/- Behind an assignment its variable is not pending. -/
theorem unmark
    (a : Assignment)
    (hStart : Scalars start)
    (hPlace : g.context.place x = some ref)
    (hName : a.name = x) :
    Reached root start (done ++ [a]) (g.unmarkSpecial ref.target) ∧
      (g.unmarkSpecial ref.target).pending = fun y => g.pending y ∧ y ≠ x := by
  have hSteady := (steady_unmarkSpecial g ref.target).1
  have hPending : (g.unmarkSpecial ref.target).pending = fun y => g.pending y ∧ y ≠ x := by
    funext y
    unfold Generator.pending
    rw [hSteady.alike.place_eq]
    unfold Generator.unmarkSpecial
    rw [h.outside hStart]
    refine propext ⟨?_, ?_⟩
    · rintro ⟨ref', hPlace', hSpecial⟩
      simp [SymbolTable.unmarkSpecial, SymbolTable.isSpecial] at hSpecial
      refine ⟨⟨ref', hPlace', ?_⟩, ?_⟩
      · simpa [SymbolTable.isSpecial] using hSpecial.1
      · rintro rfl
        cases hPlace.symm.trans hPlace'
        exact hSpecial.2 rfl
    · rintro ⟨⟨ref', hPlace', hSpecial⟩, hOther⟩
      refine ⟨ref', hPlace', ?_⟩
      simp [SymbolTable.unmarkSpecial, SymbolTable.isSpecial] at hSpecial ⊢
      refine ⟨hSpecial, fun hTarget => hOther ?_⟩
      rw [h.place_eq] at hPlace hPlace'
      exact hStart.distinct y x ref' ref hPlace' hPlace hTarget
  refine ⟨⟨h.steady.trans hSteady, ?_, ?_⟩, hPending⟩
  · rw [hPending]
    rintro y ⟨hY, hOther⟩ b hB
    rcases mem_append.mp hB with hB | hB
    · exact h.fresh y hY b hB
    · rw [mem_singleton.mp hB, hName]
      exact Ne.symm hOther
  · rw [hPending]
    exact fun y hY => h.known y hY.1

theorem pass (hFree : ¬ g.pending a.name) :
    Reached root start (done ++ [a]) g := by
  refine ⟨h.steady, fun y hY b hB => ?_, h.known⟩
  rcases mem_append.mp hB with hB | hB
  · exact h.fresh y hY b hB
  · rw [mem_singleton.mp hB]
    rintro rfl
    exact hFree hY

end Reached

------------------------------------------------------------
-- Statements
------------------------------------------------------------

/- What is read as input is what the interpreter reads so. -/
theorem isInput_eq_ok {reads : Bool}
    (h : isInput e = .ok reads) :
    e.readsInput = reads := by
  fun_induction isInput e with
  | case1 _ ih => simpa [Expr.readsInput] using ih h
  | case2 => cases h
  | case3 _ _ hInt =>
    cases h
    simp [Expr.readsInput, hInt]
  | case4 _ _ hInput hOne =>
    cases h
    unfold Expr.readsInput
    split
    · exact decide_eq_false hInput
    · exact (hOne _ rfl).elim
    · rfl
  | case5 _ _ hInput hEmpty =>
    rw [if_pos hEmpty] at h
    cases h
    rw [List.isEmpty_iff.mp hEmpty]
    exact decide_eq_true (Classical.not_not.mp hInput)
  | case6 _ _ _ hEmpty =>
    rw [if_neg hEmpty] at h
    cases h
  | case7 _ hCall =>
    cases h
    unfold Expr.readsInput
    split
    · exact (hCall _ _ rfl).elim
    · rfl

section Statements

variable {root : List Stmt} {start g g' : Generator}
  {done later : List Assignment} {inLoop : Bool} {stmt : Stmt} {stmts : List Stmt}

/-
  What is known of a part of a script and its code, given the
  assignments before it and in it.
-/
structure Lowered (root : List Stmt) (start : Generator) (inLoop : Bool)
    (made : List Assignment) (g g' : Generator) : Prop where
  reached : Reached root start made g'
  kept : ∀ x, g'.pending x → g.pending x
  loop : inLoop = true → g'.pending = g.pending

variable {line : Int} {value : Expr}

section Compiled

variable (hStart : Scalars start) (hReached : Reached root start done g)
include hStart hReached

/- A value is read, or computed and stored. -/
theorem storeCode_lowers
    (hScalar : value.isScalar = true)
    (hConstant : isConstantName x = false)
    (hPlace : start.context.place x = some ref)
    (hFree : ¬ g.pending x)
    (h : g.storeCode x ref value = .ok code) :
    LowersStmt start.context.place (declared root) g.pending
      (.assign line (.name x) [] value) code g.pending := by
  have hMode := hStart.mode x ref hPlace hConstant
  have hCtx := hReached.scalar hStart
  cases storeCode_parts h with
  | read hReads => exact .read hFree hPlace hMode (isInput_eq_ok hReads)
  | computed hReads hMade =>
    rw [hCtx.registerFor] at hMade
    rw [hCtx.registerFor, resultRegister_a]
    refine .stored hFree hPlace hMode (isInput_eq_ok hReads) ?_
    rw [← hReached.place_eq]
    exact hCtx.computes hScalar hMade

/- A call is one of a function that is given. -/
theorem exprStmtCode_lowers
    (hScalar : value.isScalar = true)
    (h : g.exprStmtCode value = .ok code) :
    LowersStmt start.context.place (declared root) g.pending
      (.expr line value) code g.pending := by
  have hCtx := hReached.scalar hStart
  rw [← hReached.place_eq]
  cases exprStmtCode_parts h with
  | print hParts =>
    simp only [Expr.isScalar, Script.allScalar, Bool.and_true] at hScalar
    cases hParts with
    | direct hSimple hDirect => exact .printOperand rfl hScalar hSimple hDirect
    | element => cases hScalar
    | computed hMade => exact .printValue (hCtx.computes hScalar hMade)
  | exit => exact .exit line
  | builtin hName hMade =>
    refine .value ?_ (hCtx.computes hScalar hMade)
    rintro rfl
    simp at hName
  | call _ _ _ hMade =>
    rcases Result.seq hMade with ⟨_, hCallee, _⟩
    exact absurd hCallee hCtx.callee

variable (hLoops : Script.DeclaredOutsideLoops root)
include hLoops

/- An assignment whose value is declared already. -/
theorem elided_lowers
    (hRoot : assignments false root = done ++ ⟨x, value, inLoop⟩ :: later)
    (hPlace : g.context.place x = some ref)
    (hPending : g.pending x) :
    LowersStmt start.context.place (declared root) g.pending
        (.assign line (.name x) [] value) [] (g.unmarkSpecial ref.target).pending ∧
      Lowered root start inLoop (done ++ [⟨x, value, inLoop⟩]) g (g.unmarkSpecial ref.target) := by
  have hFirst : firstAssignment? root x = some ⟨x, value, inLoop⟩ :=
    hReached.first hRoot hPending
  rcases hReached.known x hPending with ⟨_, hKnown, hLiteral⟩
  cases hFirst.symm.trans hKnown
  have hOutside := hLoops x _ hFirst hLiteral
  rcases hReached.unmark ⟨x, value, inLoop⟩ hStart hPlace rfl with ⟨hNext, hAfter⟩
  cases value with
  | literal =>
    constructor
    · rw [hAfter]
      refine .elided hPending ?_
      unfold declared
      rw [hFirst]
      rfl
    · refine ⟨hNext, ?_, ?_⟩
      · rw [hAfter]
        exact fun y hY => hY.1
      · intro hLoop
        cases hOutside.symm.trans hLoop
  | _ => cases hLiteral

/- A statement without a block. -/
theorem Plain.lowers
    (hScalar : stmt.isScalar = true)
    (hRoot :
      assignments false root = done ++ stmt.assignments inLoop ++ later)
    (h : Plain g stmt code g') :
    LowersStmt start.context.place (declared root) g.pending
        stmt code g'.pending ∧
      Lowered root start inLoop (done ++ stmt.assignments inLoop) g g' := by
  -- All but an elided assignment keep the state.
  have hSame : Reached root start (done ++ stmt.assignments inLoop) g →
      Lowered root start inLoop (done ++ stmt.assignments inLoop) g g :=
    fun hNext => ⟨hNext, fun _ hX => hX, fun _ => rfl⟩
  cases h with
  | pass line =>
    refine ⟨.pass line, hSame ?_⟩
    simpa [Stmt.assignments] using hReached
  | @elided _ _ _ ref hRef hSpecial =>
    have hPlace := Context.place_of_reference hRef
    rw [hReached.table_eq hStart] at hSpecial
    rw [append_assoc] at hRoot
    exact elided_lowers hStart hReached hLoops hRoot hPlace ⟨ref, hPlace, hSpecial⟩
  | @stored _ x _ _ _ hRef hSpecial hConstant _ hCode =>
    have hPlace := Context.place_of_reference hRef
    have hFree : ¬ g.pending x := by
      rintro ⟨_, hPlace', hMarked⟩
      cases hPlace.symm.trans hPlace'
      rw [hReached.table_eq hStart, hMarked] at hSpecial
      cases hSpecial
    unfold Stmt.isScalar at hScalar
    rw [Bool.and_eq_true] at hScalar
    rw [hReached.place_eq] at hPlace
    refine ⟨storeCode_lowers hStart hReached hScalar.2 hConstant hPlace hFree hCode, hSame ?_⟩
    exact hReached.pass hFree
  | element => simp [Stmt.isScalar, Place.toExpr, Expr.isScalar] at hScalar
  | expr hCode =>
    refine ⟨exprStmtCode_lowers hStart hReached hScalar hCode, hSame ?_⟩
    simpa [Stmt.assignments] using hReached
  | ret hCode =>
    rcases returnCode_parts hCode with ⟨_, hInside, _⟩
    cases (hReached.outside hStart).symm.trans hInside

end Compiled

/- Labels are taken without a change of marks. -/
theorem Reached.takes {names : List String}
    (hReached : Reached root start done g)
    (h : Takes g names g') :
    Reached root start done g' ∧ g'.pending = g.pending :=
  hReached.of_special h.steady h.special_eq

namespace Lowered

variable {g₁ g₂ : Generator} {made made' : List Assignment}

theorem trans
    (h : Lowered root start inLoop made g g₁)
    (h' : Lowered root start inLoop made' g₁ g₂) :
    Lowered root start inLoop made' g g₂ where
  reached := h'.reached
  kept := fun x hX => h.kept x (h'.kept x hX)
  loop := fun hLoop => (h'.loop hLoop).trans (h.loop hLoop)

/- Only what is pending matters at the start. -/
theorem congr
    (h : Lowered root start inLoop made g₁ g₂)
    (hPending : g₁.pending = g.pending) :
    Lowered root start inLoop made g g₂ where
  reached := h.reached
  kept := by
    rw [← hPending]
    exact h.kept
  loop := by
    rw [← hPending]
    exact h.loop

/- In the body of a loop nothing stops to be pending. -/
theorem of_loop (h : Lowered root start true made g g₁) :
    Lowered root start inLoop made g g₁ where
  reached := h.reached
  kept := h.kept
  loop := fun _ => h.loop rfl

end Lowered

/-
  The code of a block, with the assignments of the script
  before it, in it and behind it.
-/
theorem Emits.lowers
    (hStart : Scalars start)
    (hLoops : Script.DeclaredOutsideLoops root)
    (h : Emits g stmts code g')
    (hReached : Reached root start done g)
    (hScalar : isScalar stmts = true)
    (hRoot :
      assignments false root = done ++ assignments inLoop stmts ++ later) :
    Lowers start.context.place (declared root) g.pending stmts code g'.pending ∧
      Lowered root start inLoop (done ++ assignments inLoop stmts) g g' := by
  induction h generalizing done later inLoop with
  | nil =>
    refine ⟨.nil _, ?_, fun _ hX => hX, fun _ => rfl⟩
    rw [assignments, append_nil]
    exact hReached
  | @plain _ _ _ _ _ _ _ hFirst _ ihRest =>
    unfold isScalar at hScalar
    rw [Bool.and_eq_true] at hScalar
    rw [assignments, ← append_assoc] at hRoot ⊢
    rcases hFirst.lowers hStart hReached hLoops hScalar.1
      (hRoot.trans (append_assoc ..)) with ⟨hCode, hNext⟩
    rcases ihRest hNext.reached hScalar.2 hRoot with ⟨hOthers, hLast⟩
    exact ⟨.cons hCode hOthers, hNext.trans hLast⟩
  | @guarded g _ g₂ _ _ _ _ _ _ _ _ _ _ _ _ hLabels hTest _ _ ihBody ihRest =>
    unfold isScalar at hScalar
    rw [Bool.and_eq_true] at hScalar
    have hSome := hLabels.takes.nonempty
    simp only [forall_mem_cons] at hSome
    rcases hReached.takes hLabels.takes with ⟨hReached₁, hPending⟩
    cases hLabels with
    | loop =>
      unfold Stmt.isScalar at hScalar
      rw [Bool.and_eq_true] at hScalar
      rw [assignments, Stmt.assignments, ← append_assoc] at hRoot ⊢
      have hTests := Tests.of hReached₁.place_eq hScalar.1.1 hTest
      rcases ihBody hReached₁ hScalar.1.2 (hRoot.trans (append_assoc ..)) with ⟨hCode, hNext⟩
      replace hNext := hNext.congr (g := g) hPending
      rcases ihRest hNext.reached hScalar.2 hRoot with ⟨hOthers, hLast⟩
      have hAround : g₂.pending = g.pending := hNext.loop rfl
      rw [hPending, hAround] at hCode
      rw [hAround] at hOthers
      exact ⟨.cons (.loop hSome.1 hSome.2.1 hTests hCode) hOthers, hNext.of_loop.trans hLast⟩
    | cond =>
      unfold Stmt.isScalar at hScalar
      simp only [Bool.and_eq_true] at hScalar
      rw [assignments, Stmt.assignments, assignments,
        append_nil, ← append_assoc] at hRoot ⊢
      have hTests := Tests.of hReached₁.place_eq hScalar.1.1.1 hTest
      rcases ihBody hReached₁ hScalar.1.1.2 (hRoot.trans (append_assoc ..)) with
        ⟨hCode, hNext⟩
      replace hNext := hNext.congr (g := g) hPending
      rcases ihRest hNext.reached hScalar.2 hRoot with ⟨hOthers, hLast⟩
      rw [hPending] at hCode
      exact ⟨.cons (.cond hSome.2.1 hTests hCode hNext.kept) hOthers, hNext.trans hLast⟩
  | @condElse g _ _ _ _ _ _ body orElse rest _ _ _ _ _ _ _ _ hLabels hTest _ _ _
      ihBody ihOrElse ihRest =>
    unfold isScalar Stmt.isScalar at hScalar
    simp only [Bool.and_eq_true] at hScalar
    rw [assignments, Stmt.assignments, ← append_assoc, ← append_assoc] at hRoot ⊢
    have hSome := hLabels.takes.nonempty
    simp only [forall_mem_cons] at hSome
    rcases hReached.takes hLabels.takes with ⟨hReached₁, hPending⟩
    have hTests := Tests.of hReached₁.place_eq hScalar.1.1.1 hTest
    have hRoot₁ : assignments false root = done ++ assignments inLoop body ++
            (assignments inLoop orElse ++ (assignments inLoop rest ++ later)) := by
      rw [hRoot, append_assoc, append_assoc]
    have hRoot₂ : assignments false root = (done ++ assignments inLoop body) ++
            assignments inLoop orElse ++ (assignments inLoop rest ++ later) := by
      rw [hRoot, append_assoc]
    rcases ihBody hReached₁ hScalar.1.1.2 hRoot₁ with ⟨hCode, hNext⟩
    replace hNext := hNext.congr (g := g) hPending
    rcases ihOrElse hNext.reached hScalar.1.2 hRoot₂ with ⟨hElseCode, hBetween⟩
    rcases ihRest hBetween.reached hScalar.2 hRoot with ⟨hOthers, hLast⟩
    rw [hPending] at hCode
    exact ⟨.cons (.condElse hSome.2.1 hSome.2.2.1 hTests hCode hElseCode hNext.kept hBetween.kept)
      hOthers, (hNext.trans hBetween).trans hLast⟩
  | define =>
    unfold isScalar Stmt.isScalar at hScalar
    simp at hScalar

end Statements

end Compile

end Pep9
