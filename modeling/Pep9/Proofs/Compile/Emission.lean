import Pep9.Compile.Generate
import Pep9.Proofs.Result

/-
  The code of a block as a relation. A derivation of
  `Emits g stmts code g'` has one node for each statement,
  with what every part of its code was made from. Facts about
  all generated code are proved by induction on it.

  Key theorems: `ExprCases.expr`, `blockCode_emits`,
  `generate_emits`, `compile_generate`.
-/

namespace Pep9

open List Result
open Script (Expr Stmt Place)

variable {rest : List Stmt} {value : Expr}

namespace Compile

/- The code that stores one argument of a call. -/
def Context.argument (ctx : Context) (slot : Int64) (arg : Expr) : Except Error Code :=
  match nameOf? arg with
  | some id => ctx.nameArgument slot id
  | none =>
    if hasCall arg then
      .error (.unsupported (.callArgument arg.describe))
    else
      (exprCode ctx .a arg).map (· ++ [Context.storeAt slot])

theorem argsCode_cons {ctx : Context}
    (slot : Int64)
    (arg : Expr)
    (rest : List Expr) :
    argsCode ctx slot (arg :: rest) = do
      let first ← ctx.argument slot arg
      let others ← argsCode ctx (slot + 2) rest
      return first ++ others := by
  rw [argsCode]
  unfold Context.argument
  cases nameOf? arg with
  | some => rfl
  | none => cases hasCall arg <;> rfl

/-
  What has to be shown of the forms of expressions without
  calls of functions, so that `P` holds of their code.
-/
structure FreeCases (ctx : Context) (P : Register → Expr → Code → Prop) : Prop where
  literal : ∀ {r value code}, ctx.operandCode Register.load r (.literal value) = .ok code →
        P r (.literal value) code
  name : ∀ {r id code}, ctx.operandCode Register.load r (.name id) = .ok code → P r (.name id) code
  element : ∀ {r base position code}, ctx.operandCode Register.load .a (.element base position) =
          .ok code → P r (.index base position) code
  arith : ∀ {r op left right apply operand first second}, arithOp? op = some apply →
        simple? right = some operand → P (resultRegister (.arith op left right) r) left first →
        ctx.operandCode apply (resultRegister (.arith op left right) r) operand = .ok second →
        P r (.arith op left right) (first ++ second)
  int : ∀ {r arg code}, P .a arg code → P r (.call "int" [arg]) code

/-
  And of calls, so that `P` holds of the code of all
  expressions and `Q` of the code that stores the arguments of
  all calls.
-/
structure ExprCases (ctx : Context) (P : Register → Expr → Code → Prop)
    (Q : Int64 → List Expr → Code → Prop) : Prop extends FreeCases ctx P where
  call : ∀ {r function args callee stores}, function ∉ builtins →
        ctx.checkReturns function = .ok () → ctx.callee function args.length = .ok callee →
        argsCode ctx callee.firstSlot args = .ok stores → Q callee.firstSlot args stores →
        P r (.call function args) (stores ++ callee.transfer)
  noArgs : ∀ {slot}, Q slot [] []
  nameArg : ∀ {slot id rest first others}, ctx.nameArgument slot id = .ok first →
        Q (slot + 2) rest others → Q slot (.name id :: rest) (first ++ others)
  valueArg : ∀ {slot arg rest first others}, hasCall arg = false → P .a arg first →
        Q (slot + 2) rest others → Q slot (arg :: rest) (first ++ [Context.storeAt slot] ++ others)

variable {code : Code} {test : Expr} {line : Int} {body : List Stmt} {compiled : Compiled}
  {options : Options}

namespace ExprCases

variable {ctx : Context} {P : Register → Expr → Code → Prop} {Q : Int64 → List Expr → Code → Prop}

mutual

/- What is shown of every form holds of all expressions. -/
theorem expr
    (cases : ExprCases ctx P Q)
    {r : Register} {e : Expr} {code : Code}
    (h : exprCode ctx r e = .ok code) :
    P r e code := by
  cases e with
  | literal =>
    rw [exprCode] at h
    exact cases.literal h
  | name =>
    rw [exprCode] at h
    exact cases.name h
  | index =>
    rw [exprCode] at h
    exact cases.element h
  | arith =>
    rw [exprCode] at h
    split at h
    · cases h
    · next hOp =>
      split at h
      · cases h
      · next hSimple =>
        rcases seq h with ⟨_, hFirst, h₁⟩
        rcases seq h₁ with ⟨_, hSecond, hDone⟩
        cases hDone
        exact cases.arith hOp hSimple (cases.expr hFirst) hSecond
  | call function args =>
    unfold exprCode at h
    split at h
    · next hInt =>
      subst hInt
      split at h
      · exact cases.int (cases.expr h)
      · cases h
    · next hInt =>
      split at h
      · cases h
      · next hInput =>
        split at h
        · cases h
        · next hProcedure =>
          rcases seq h with ⟨_, hReturns, h₁⟩
          rcases seq h₁ with ⟨_, hCallee, h₂⟩
          rcases seq h₂ with ⟨_, hStores, hDone⟩
          cases hDone
          rcases not_or.mp hProcedure with ⟨hPrint, hExit⟩
          have hDefined : function ∉ builtins := by
            simp [builtins, hInt, hInput, hPrint, hExit]
          exact cases.call hDefined hReturns hCallee hStores (cases.args hStores)
  | unary | logic | compare | string | list =>
    rw [exprCode] at h
    cases h

theorem args
    (cases : ExprCases ctx P Q)
    {slot : Int64} {args : List Expr} {code : Code}
    (h : argsCode ctx slot args = .ok code) :
    Q slot args code := by
  cases args with
  | nil =>
    rw [argsCode] at h
    cases h
    exact cases.noArgs
  | cons arg rest =>
    rw [argsCode_cons] at h
    rcases seq h with ⟨_, hFirst, h₁⟩
    rcases seq h₁ with ⟨_, hOthers, hDone⟩
    cases hDone
    unfold Context.argument at hFirst
    split at hFirst
    · next hName =>
      cases arg <;> cases hName
      exact cases.nameArg hFirst (cases.args hOthers)
    · split at hFirst
      · cases hFirst
      · next hCall =>
        rcases map_eq_ok.mp hFirst with ⟨_, hMade, rfl⟩
        exact cases.valueArg (Bool.eq_false_iff.mpr hCall) (cases.expr hMade) (cases.args hOthers)

end

end ExprCases

/-
  The parts of the code of a condition: both operands, the
  first with the label, and the branch to the exit.
-/
structure ConditionParts (ctx : Context) (label exit : String) (test : Expr) (code : Code) where
  left : Expr
  op : Script.Comparison
  right : Expr
  leftOperand : Simple
  rightOperand : Simple
  first : Code
  second : Code
  test_eq : test = .compare left (.last op right)
  left_simple : simple? left = some leftOperand
  right_simple : simple? right = some rightOperand
  first_eq : ctx.operandCode Register.load
      (ctx.comparisonRegister leftOperand) leftOperand = .ok first
  second_eq : ctx.operandCode Register.compare
      (ctx.comparisonRegister leftOperand) rightOperand = .ok second
  code_eq : code = labelFirst label first ++ second ++ [.jump (exitBranch op) exit]

theorem conditionCode_parts {ctx : Context} {label exit : String}
    (h : ctx.conditionCode label exit test = .ok code) :
    Nonempty (ConditionParts ctx label exit test code) := by
  unfold Context.conditionCode at h
  split at h
  · next left op right =>
    split at h
    · next l r hLeft hRight =>
      unfold Context.compareCode at h
      rcases seq h with ⟨first, hFirst, h₁⟩
      rcases seq h₁ with ⟨second, hSecond, hDone⟩
      cases hDone
      exact ⟨{
        left := left
        op := op
        right := right
        leftOperand := l
        rightOperand := r
        first := first
        second := second
        test_eq := rfl
        left_simple := hLeft
        right_simple := hRight
        first_eq := hFirst
        second_eq := hSecond
        code_eq := rfl }⟩
    · cases h
  · cases h
  · cases h
  · cases h
  · cases h

------------------------------------------------------------
-- Statements without Blocks
------------------------------------------------------------

/-
  The code of a statement that has no block. Only an
  assignment whose value is declared already changes the
  state, and it has no code.
-/
inductive Plain (g : Generator) : Stmt → Code → Generator → Prop where
  | pass (line : Int) : Plain g (.pass line) [] g
  | elided {line : Int} {name : String} {value : Expr} {ref : Reference}
      (hRef : g.context.reference name = .ok ref)
      (hSpecial : g.context.table.isSpecial ref.target = true) :
      Plain g (.assign line (.name name) [] value) [] (g.unmarkSpecial ref.target)
  | stored {line : Int} {name : String} {value : Expr} {ref : Reference} {code : Code}
      (hRef : g.context.reference name = .ok ref)
      (hSpecial : g.context.table.isSpecial ref.target = false)
      (hConstant : isConstantName name = false) (hMode : ref.mode.isIndexed = false)
      (hCode : g.storeCode name ref value = .ok code) :
      Plain g (.assign line (.name name) [] value) code g
  | element {line : Int} {base position value : Expr} {code : Code}
      (hCode : g.assignElement base position value = .ok code) :
      Plain g (.assign line (.element base position) [] value) code g
  | expr {line : Int} {value : Expr} {code : Code} (hCode : g.exprStmtCode value = .ok code) :
      Plain g (.expr line value) code g
  | ret {line : Int} {value : Option Expr} {code : Code} (hCode : g.returnCode value = .ok code) :
      Plain g (.ret line value) code g

/- A statement without a block has the code that it is given. -/
theorem Plain.stmtCode_eq {g g' : Generator} {stmt : Stmt}
    (h : Plain g stmt code g') :
    stmtCode g stmt = .ok (code, g') := by
  cases h with
  | pass => rw [stmtCode]
  | elided hRef hSpecial =>
    rw [stmtCode, located_eq_ok]
    simp only [Generator.assignCode, checkTargets, isEmpty_nil,
      if_true, bind, Except.bind, Generator.assignName, hRef, hSpecial]
  | stored hRef hSpecial hConstant hMode hCode =>
    rw [stmtCode, located_eq_ok]
    simp only [Generator.assignCode, checkTargets, isEmpty_nil,
      if_true, bind, Except.bind, Generator.assignName, hRef, hSpecial,
      hConstant, hMode, hCode, Bool.false_eq_true, if_false]
    rfl
  | element hCode =>
    rw [stmtCode, located_eq_ok]
    simp only [Generator.assignCode, checkTargets, isEmpty_nil,
      if_true, bind, Except.bind, hCode]
    rfl
  | expr hCode | ret hCode =>
    rw [stmtCode, located_eq_ok]
    simp only [bind, Except.bind, hCode]
    rfl

theorem assignName_plain {g g' : Generator} {name : String}
    (h : g.assignName name value = .ok (code, g')) :
    Plain g (.assign line (.name name) [] value) code g' := by
  unfold Generator.assignName at h
  split at h
  · split at h <;> cases h
  · next ref hRef =>
    split at h
    · next hSpecial =>
      cases h
      exact .elided hRef hSpecial
    · next hSpecial =>
      split at h
      · cases h
      · next hConstant =>
        split at h
        · cases h
        · next hMode =>
          rcases seq h with ⟨_, hCode, hDone⟩
          cases hDone
          exact .stored hRef (Bool.eq_false_iff.mpr hSpecial) (Bool.eq_false_iff.mpr hConstant)
            (Bool.eq_false_iff.mpr hMode) hCode

theorem assignCode_plain
    (line : Int)
    {g g' : Generator} {first : Place} {others : List Place}
    (h : g.assignCode first others value = .ok (code, g')) :
    Plain g (.assign line first others value) code g' := by
  unfold Generator.assignCode checkTargets at h
  cases others with
  | cons =>
    simp only [isEmpty_cons, Bool.false_eq_true, if_false] at h
    cases h
  | nil =>
    rcases seq h with ⟨_, _, hFirst⟩
    cases first with
    | name => exact assignName_plain hFirst
    | element =>
      rcases seq hFirst with ⟨_, hCode, hDone⟩
      cases hDone
      exact .element hCode

/-
  The labels of a loop, or of a conditional with one block:
  where its test starts, its end, and where the jump behind the
  block goes. The block is compiled from the last state on.
-/
inductive Guarded (g : Generator) (line : Int) (test : Expr) (body : List Stmt) :
    Stmt → String → String → String → Generator → Prop where
  | loop {g₁ g₂ : Generator} {start exit : String}
      (hStart : g.label loopStem g.loops = .ok (start, g₁))
      (hExit : g₁.label loopEndStem g.loops = .ok (exit, g₂)) : Guarded g line test body
        (.loop line test body) start exit start { g₂ with loops := g.loops + 1 }
  | cond {g₁ g₂ : Generator} {start exit : String}
      (hStart : g.label condStem g.conds = .ok (start, g₁))
      (hExit : g₁.label condEndStem g.conds = .ok (exit, g₂)) : Guarded g line test body
        (.cond line test body []) start exit exit { g₂ with conds := g.conds + 1 }

/- The labels of a conditional with two blocks. -/
inductive Forked (g : Generator) : String → String → String → Generator → Prop where
  | labels {g₁ g₂ g₃ : Generator} {start exit other : String}
      (hStart : g.label condStem g.conds = .ok (start, g₁))
      (hExit : g₁.label condEndStem g.conds = .ok (exit, g₂))
      (hOther : g₂.label elseStem g.conds = .ok (other, g₃)) :
      Forked g start exit other { g₃ with conds := g.conds + 1 }

/- The code of a block and the state behind it. -/
inductive Emits : Generator → List Stmt → Code → Generator → Prop where
  | nil (g : Generator) : Emits g [] [] g
  | plain {g g₁ g₂ : Generator} {stmt : Stmt} {rest : List Stmt} {first others : Code}
      (hFirst : Plain g stmt first g₁) (hRest : Emits g₁ rest others g₂) :
      Emits g (stmt :: rest) (first ++ others) g₂
  | guarded {g g₁ g₂ g₃ : Generator} {line : Int} {test : Expr} {stmt : Stmt}
      {body rest : List Stmt} {start exit target : String} {condition code others : Code}
      (hLabels : Guarded g line test body stmt start exit target g₁)
      (hTest : g₁.context.conditionCode start exit test = .ok condition)
      (hBody : Emits g₁ body code g₂) (hRest : Emits g₂ rest others g₃) :
      Emits g (stmt :: rest) (condition ++ code ++ [.jump .br target, mark exit] ++ others) g₃
  | condElse {g g₁ g₂ g₃ g₄ : Generator} {line : Int} {test : Expr}
      {body orElse rest : List Stmt} {start exit other : String}
      {condition code elseCode others : Code} (hElse : orElse.isEmpty = false)
      (hLabels : Forked g start exit other g₁)
      (hTest : g₁.context.conditionCode start other test = .ok condition)
      (hBody : Emits g₁ body code g₂) (hOrElse : Emits g₂ orElse elseCode g₃)
      (hRest : Emits g₃ rest others g₄) : Emits g (.cond line test body orElse :: rest)
        (condition ++ code ++ [.jump .br exit, mark other] ++ elseCode ++ [mark exit] ++ others) g₄
  | define {g g₁ g₂ g₃ : Generator} {line : Int} {name : String}
      {params : List String} {body rest : List Stmt} {entry : Generator.Entry} {code others : Code}
      (hEnter : g.enter name params body = .ok (entry, g₁)) (hBody : Emits g₁ body code g₂)
      (hRest : Emits (g₂.leave entry) rest others g₃) :
      Emits g (.define line name params body :: rest) (entry.wrap body code ++ others) g₃

section Statements

variable {g g₁ g₂ g₃ : Generator} {stmt : Stmt}
  {orElse : List Stmt} {start exit other target : String} {condition elseCode : Code}

section

variable (h : Guarded g line test body stmt start exit target g₁)
include h

theorem Guarded.target_mem :
    target ∈ [start, exit] := by
  cases h with
  | loop => exact mem_cons_self
  | cond => exact mem_cons_of_mem _ mem_cons_self

/- Statements with blocks are compiled as their parts are. -/
theorem Guarded.stmtCode_eq
    (hTest : g₁.context.conditionCode start exit test = .ok condition)
    (hBody : blockCode g₁ body = .ok (code, g₂)) :
    stmtCode g stmt = .ok (condition ++ code ++ [.jump .br target, mark exit], g₂) := by
  cases h with
  | loop hStart hExit | cond hStart hExit =>
    rw [stmtCode, located_eq_ok]
    refine bind_eq_ok.mpr ⟨_, hStart, ?_⟩
    refine bind_eq_ok.mpr ⟨_, hExit, ?_⟩
    refine bind_eq_ok.mpr ⟨_, hTest, ?_⟩
    exact bind_eq_ok.mpr ⟨_, hBody, rfl⟩

end

theorem Forked.stmtCode_eq
    (h : Forked g start exit other g₁)
    (hElse : orElse.isEmpty = false)
    (hTest : g₁.context.conditionCode start other test = .ok condition)
    (hBody : blockCode g₁ body = .ok (code, g₂))
    (hOrElse : blockCode g₂ orElse = .ok (elseCode, g₃)) :
    stmtCode g (.cond line test body orElse) = .ok
      (condition ++ code ++ [.jump .br exit, mark other] ++ elseCode ++ [mark exit], g₃) := by
  cases h with
  | labels hStart hExit hOther =>
    rw [stmtCode, located_eq_ok]
    refine bind_eq_ok.mpr ⟨_, hStart, ?_⟩
    refine bind_eq_ok.mpr ⟨_, hExit, ?_⟩
    dsimp only
    rw [if_neg (Bool.eq_false_iff.mp hElse)]
    refine bind_eq_ok.mpr ⟨_, hOther, ?_⟩
    refine bind_eq_ok.mpr ⟨_, hTest, ?_⟩
    refine bind_eq_ok.mpr ⟨_, hBody, ?_⟩
    exact bind_eq_ok.mpr ⟨_, hOrElse, rfl⟩

section Blocks

variable {g' : Generator} {stmts : List Stmt} {name : String} {params : List String}
  {entry : Generator.Entry}

theorem blockCode_cons {first others : Code}
    (hFirst : stmtCode g stmt = .ok (first, g₁))
    (hRest : blockCode g₁ rest = .ok (others, g₂)) :
    blockCode g (stmt :: rest) = .ok (first ++ others, g₂) := by
  rw [blockCode]
  refine bind_eq_ok.mpr ⟨(first, g₁), hFirst, ?_⟩
  exact bind_eq_ok.mpr ⟨(others, g₂), hRest, rfl⟩

theorem stmtCode_define
    (line : Int)
    (hEnter : g.enter name params body = .ok (entry, g₁))
    (hBody : blockCode g₁ body = .ok (code, g₂)) :
    stmtCode g (.define line name params body) =
      .ok (entry.wrap body code, g₂.leave entry) := by
  rw [stmtCode, located_eq_ok]
  refine bind_eq_ok.mpr ⟨(entry, g₁), hEnter, ?_⟩
  exact bind_eq_ok.mpr ⟨(code, g₂), hBody, rfl⟩

theorem Emits.blockCode_eq (h : Emits g stmts code g') :
    blockCode g stmts = .ok (code, g') := by
  induction h with
  | nil => rfl
  | plain hFirst _ ih => exact blockCode_cons hFirst.stmtCode_eq ih
  | guarded hLabels hTest _ _ ihBody ihRest =>
    exact blockCode_cons (hLabels.stmtCode_eq hTest ihBody) ihRest
  | condElse hElse hLabels hTest _ _ _ ihBody ihElse ihRest =>
    exact blockCode_cons (hLabels.stmtCode_eq hElse hTest ihBody ihElse) ihRest
  | define hEnter _ _ ihBody ihRest =>
    exact blockCode_cons (stmtCode_define _ hEnter ihBody) ihRest

end Blocks

end Statements

/-
  The code of one statement, with that of the statements
  behind it.
-/
def EmitsStmt (stmt : Stmt) : Prop :=
  ∀ ⦃g g₁ g₂ : Generator⦄ ⦃first others : Code⦄ ⦃rest : List Stmt⦄,
    stmtCode g stmt = .ok (first, g₁) → Emits g₁ rest others g₂ →
        Emits g (stmt :: rest) (first ++ others) g₂

/- The code of the statements of a block. -/
def EmitsBlock (stmts : List Stmt) : Prop :=
  ∀ ⦃g g' : Generator⦄ ⦃code : Code⦄, blockCode g stmts = .ok (code, g') → Emits g stmts code g'

theorem emitsBlock_nil : EmitsBlock [] := by
  intro g _ _ h
  rw [blockCode] at h
  cases h
  exact .nil g

theorem emitsBlock_cons {stmt : Stmt}
    (hStmt : EmitsStmt stmt)
    (hRest : EmitsBlock rest) :
    EmitsBlock (stmt :: rest) := by
  intro _ _ _ h
  rw [blockCode] at h
  rcases seq h with ⟨⟨_, _⟩, hFirst, h₁⟩
  rcases seq h₁ with ⟨⟨_, _⟩, hOthers, hDone⟩
  cases hDone
  exact hStmt hFirst (hRest hOthers)

section

variable (hBody : EmitsBlock body)
include hBody

theorem emitsStmt_loop : EmitsStmt (.loop line test body) := by
  intro _ _ _ _ _ _ h hRest
  rw [stmtCode, located_eq_ok] at h
  rcases seq h with ⟨⟨_, _⟩, hStart, h₁⟩
  rcases seq h₁ with ⟨⟨_, _⟩, hExit, h₂⟩
  rcases seq h₂ with ⟨_, hTest, h₃⟩
  rcases seq h₃ with ⟨⟨_, _⟩, hCode, hDone⟩
  cases hDone
  exact .guarded (.loop hStart hExit) hTest (hBody hCode) hRest

theorem emitsStmt_cond {orElse : List Stmt}
    (hOrElse : EmitsBlock orElse) :
    EmitsStmt (.cond line test body orElse) := by
  intro _ _ _ _ _ _ h hRest
  rw [stmtCode, located_eq_ok] at h
  rcases seq h with ⟨⟨_, _⟩, hStart, h₁⟩
  rcases seq h₁ with ⟨⟨_, _⟩, hExit, h₂⟩
  dsimp only at h₂
  split at h₂
  · next hElse =>
    rcases seq h₂ with ⟨_, hTest, h₃⟩
    rcases seq h₃ with ⟨⟨_, _⟩, hCode, hDone⟩
    cases hDone
    cases List.isEmpty_iff.mp hElse
    exact .guarded (.cond hStart hExit) hTest (hBody hCode) hRest
  · next hElse =>
    rcases seq h₂ with ⟨⟨_, _⟩, hOther, h₃⟩
    rcases seq h₃ with ⟨_, hTest, h₄⟩
    rcases seq h₄ with ⟨⟨_, _⟩, hCode, h₅⟩
    rcases seq h₅ with ⟨⟨_, _⟩, hElseCode, hDone⟩
    cases hDone
    exact .condElse (Bool.eq_false_iff.mpr hElse) (.labels hStart hExit hOther)
      hTest (hBody hCode) (hOrElse hElseCode) hRest

theorem emitsStmt_define {name : String} {params : List String} :
    EmitsStmt (.define line name params body) := by
  intro _ _ _ _ _ _ h hRest
  rw [stmtCode, located_eq_ok] at h
  rcases seq h with ⟨⟨_, _⟩, hEnter, h₁⟩
  rcases seq h₁ with ⟨⟨_, _⟩, hCode, hDone⟩
  cases hDone
  exact .define hEnter (hBody hCode) hRest

end

mutual

/- The code of a statement is emitted block by block. -/
theorem stmtCode_emits (stmt : Stmt) : EmitsStmt stmt := by
  cases stmt with
  | assign =>
    intro _ _ _ _ _ _ h hRest
    rw [stmtCode, located_eq_ok] at h
    exact .plain (assignCode_plain _ h) hRest
  | expr =>
    intro _ _ _ _ _ _ h hRest
    rw [stmtCode, located_eq_ok] at h
    rcases seq h with ⟨_, hCode, hDone⟩
    cases hDone
    exact .plain (.expr hCode) hRest
  | ret =>
    intro _ _ _ _ _ _ h hRest
    rw [stmtCode, located_eq_ok] at h
    rcases seq h with ⟨_, hCode, hDone⟩
    cases hDone
    exact .plain (.ret hCode) hRest
  | cond _ _ body orElse => exact emitsStmt_cond (blockCode_emits body) (blockCode_emits orElse)
  | loop _ _ body => exact emitsStmt_loop (blockCode_emits body)
  | define _ _ _ body => exact emitsStmt_define (blockCode_emits body)
  | pass line =>
    intro _ _ _ _ _ _ h hRest
    rw [stmtCode] at h
    cases h
    exact .plain (.pass line) hRest
  | augment | each | breakLoop | continueLoop =>
    intro _ _ _ _ _ _ h _
    rw [stmtCode, located_eq_ok] at h
    cases h

theorem blockCode_emits :
    ∀ stmts : List Stmt, EmitsBlock stmts
  | [] => emitsBlock_nil
  | stmt :: rest => emitsBlock_cons (stmtCode_emits stmt) (blockCode_emits rest)

end

------------------------------------------------------------
-- Whole Scripts
------------------------------------------------------------

/-
  The parts that a compiled script is made of. All marks of
  the table were made when variables were declared.
-/
structure Parts (options : Options) (table : SymbolTable) (stmts : List Stmt)
    (compiled : Compiled) where
  globals : Globals
  bound : SymbolTable
  marks : List String
  entry : String
  started : Generator
  code : Code
  final : Generator
  analyzed : analyzeGlobals options.usual stmts = .ok globals
  allocated : allocateGlobals table globals.vars =
      ({ bound with special := marks }, .ok compiled.program.data)
  marked : ∀ target ∈ bound.special, target ∈ marks
  labelled : (Generator.start options.usual globals bound).label landingStem
      (Generator.start options.usual globals bound).landings = .ok (entry, started)
  emits : Emits started stmts code final
  program : compiled.program =
      { source := options.source
        entry := entry
        data := compiled.program.data
        frames := final.frames
        code := mark entry :: code ++ (if endsWithExit stmts then [] else [.plain .stop]) }
  table_eq : compiled.table = final.table

/- A script with declared variables has such parts. -/
theorem generateFrom_emits {table : SymbolTable} {stmts : List Stmt} {globals : Globals}
    {bound : SymbolTable} {marks : List String} {data : List Listing.Declaration}
    (hGlobals : analyzeGlobals options.usual stmts = .ok globals)
    (hData : allocateGlobals table globals.vars = ({ bound with special := marks }, .ok data))
    (hMarks : ∀ target ∈ bound.special, target ∈ marks)
    (h : generateFrom options globals bound data stmts = .ok compiled) :
    ∃ parts : Parts options table stmts compiled,
      parts.globals = globals ∧ parts.bound = bound := by
  unfold generateFrom at h
  rcases seq h with ⟨⟨entry, g₁⟩, hEntry, h₁⟩
  rcases seq h₁ with ⟨⟨code, g₂⟩, hCode, hDone⟩
  cases hDone
  exact ⟨{
    globals := globals
    bound := bound
    marks := marks
    entry := entry
    started := g₁
    code := code
    final := g₂
    analyzed := hGlobals
    allocated := hData
    marked := hMarks
    labelled := hEntry
    emits := blockCode_emits stmts hCode
    program := rfl
    table_eq := rfl }, rfl, rfl⟩

/- A script that compiles has such parts, with the table that it starts from. -/
theorem generate_allocated {table : SymbolTable} {stmts : List Stmt}
    (h : generate options table stmts = .ok compiled) :
    ∃ parts : Parts options table stmts compiled, allocateGlobals table parts.globals.vars =
        (parts.bound, .ok compiled.program.data) := by
  unfold generate at h
  rcases seq h with ⟨_, hGlobals, h₁⟩
  dsimp only at h₁
  rcases seq h₁ with ⟨_, hData, h₂⟩
  rcases generateFrom_emits hGlobals (Prod.ext rfl hData)
    (fun _ hMark => hMark) h₂ with ⟨parts, hSame, hBound⟩
  refine ⟨parts, ?_⟩
  have hAllocated := parts.allocated
  rw [hSame] at hAllocated ⊢
  rw [hBound]
  refine Prod.ext rfl ?_
  rw [hAllocated]

/- A text that compiles is a script that does. -/
theorem compile_generate {source : String}
    (h : compile options source = .ok compiled) :
    ∃ stmts, Script.parseSource source = .ok stmts ∧
        generate options .empty stmts = .ok compiled := by
  unfold compile at h
  split at h
  · cases h
  · next stmts hParse =>
    exact ⟨stmts, hParse, mapError_eq_ok.mp h⟩

end Compile

end Pep9
