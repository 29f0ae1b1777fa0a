import Pep9.Proofs.Compile.Lowering
import Pep9.Proofs.Compile.Running

/-
  The machine follows the interpreter. What is still to be
  executed of a script has its code where the machine is, and
  each statement is executed by some steps of the machine.

  Key theorems: `Computes.runs`, `Tests.runs`,
  `Lowers.follows`, `Matches.simulates`.
-/

namespace Pep9

open List
open Listing (Instruction)
open Machine (Steps)
open Script (Expr Stmt State Store value? holds? wordOf)

variable {u : UInt16} {goal : Code} {j : Instruction} {orElse todo : List Stmt}
  {s' : State}

namespace Compile

variable {start exit x : String} {after : Pending} {line : Int}
  {condition : Code} {test : Expr} {body : List Stmt}

section Expressions

variable {w : World} {before behind : Code} {s : State} {m : Machine} {e : Expr} {code : Code}

/- The machine and the interpreter agree on values. -/
theorem Running.value?_eq {ctx : Context}
    (h : Running w before s m)
    (hPlace : ctx.place = w.place)
    (hScalar : e.isScalar = true)
    (hValue : ctx.value? w.value m e = some u) :
    value? s.store e = some u := by
  fun_induction Context.value? ctx w.value m e generalizing u with
  | case1 =>
    rw [Context.word?] at hValue
    exact hValue
  | case2 id =>
    rw [Context.word?, hPlace] at hValue
    rcases Option.bind_eq_some_iff.mp hValue with ⟨ref, hRef, hWord⟩
    exact (h.store id ref hRef).symm.trans hWord
  | case3 => cases hScalar
  | case4 op _ _ ihLeft ihRight =>
    rw [Expr.isScalar, Bool.and_eq_true] at hScalar
    rcases Option.bind_eq_some_iff.mp hValue with ⟨_, hLeft, h₁⟩
    rcases Option.bind_eq_some_iff.mp h₁ with ⟨_, hRight, hResult⟩
    unfold value?
    rw [ihLeft hScalar.1 hLeft, ihRight hScalar.2 hRight]
    cases op <;> exact hResult
  | case5 _ ih =>
    simp only [Expr.isScalar, Script.allScalar, Bool.and_true] at hScalar
    rw [value?]
    exact ih hScalar hValue
  | _ => cases hValue

theorem Computes.runs
    (hCode : Computes w.place e code)
    (h : Running w before s m)
    (hAt : w.program.code = before ++ code ++ behind) :
    ∃ last, Steps code.length m last ∧
      Running w (before ++ code) s last ∧ value? s.store e = some last.a := by
  rcases hCode with ⟨hPlace, hScalar, hCalls, hMade⟩
  rcases (freeCases_valued w.value _).expr hMade hCalls m with ⟨_, last, hValue, hRun, rfl⟩
  rw [resultRegister_a] at hValue
  rcases h.executes hAt hRun with ⟨hSteps, hLast⟩
  exact ⟨last, hSteps, hLast, h.value?_eq hPlace hScalar hValue⟩

/-
  The code of a condition goes on where it holds, and to its
  exit where it does not.
-/
theorem Tests.runs {rest : Code}
    (hCode : Tests w.place start exit e code)
    (h : Running w before s m)
    (hSound : w.Sound)
    (hAt : w.program.code = before ++ code ++ behind)
    (hGoal : w.program.code = goal ++ j :: rest)
    (hLabel : j.label = exit)
    (hSome : exit ≠ "") :
    ∃ n last holds, 0 < n ∧ Steps n m last ∧ holds? s.store e = some holds ∧
      Running w (if holds then before ++ code else goal) s last := by
  rcases hCode with ⟨hPlace, hScalar, hMade⟩
  rcases conditionCode_parts hMade with ⟨parts⟩
  rcases parts.decides w.value m with ⟨a, b, last, hA, hB, hDecides⟩
  rcases h.decides hSound hAt hDecides hGoal hLabel hSome with ⟨hSteps, hLast⟩
  rw [parts.test_eq] at hScalar ⊢
  simp only [Expr.isScalar, Script.Chain.isScalar, Bool.and_eq_true] at hScalar
  refine ⟨_, last, parts.op.holds a b, ?_, hSteps, ?_, ?_⟩
  · rw [parts.code_eq, length_append]
    exact Nat.succ_pos _
  · rw [holds?, h.value?_eq hPlace hScalar.1 hA, h.value?_eq hPlace hScalar.2 hB]
  · cases hHolds : parts.op.holds a b with
    | true | false =>
      rw [hHolds] at hLast
      exact hLast

end Expressions

/-
  The code behind some other code executes statements. Jumps
  and marks stand between the statements of different blocks.
-/
inductive Follows (w : World) (declared : Store) : Code → Pending → List Stmt → Prop where
  | halt {before behind : Code} {pending : Pending}
      (hAt : w.program.code = before ++ .plain .stop :: behind) :
      Follows w declared before pending []
  | exit {before behind : Code} {pending : Pending} {line : Int} {rest : List Stmt}
      (hAt : w.program.code = before ++ .plain .stop :: behind) : Follows w declared before pending
        (.expr line (.call "exit" []) :: rest)
  | cons {before code behind : Code} {pending after : Pending} {stmt : Stmt} {rest : List Stmt}
      (hAt : w.program.code = before ++ code ++ behind)
      (hCode : LowersStmt w.place declared pending stmt code after)
      (hRest : Follows w declared (before ++ code) after rest) :
      Follows w declared before pending (stmt :: rest)
  | jump {before behind goal rest : Code} {j : Instruction}
      {target : String} {pending : Pending} {todo : List Stmt}
      (hAt : w.program.code = before ++ .jump .br target :: behind)
      (hGoal : w.program.code = goal ++ j :: rest) (hLabel : j.label = target) (hSome : target ≠ "")
      (hTodo : Follows w declared goal pending todo) : Follows w declared before pending todo
  | mark {before behind : Code} {label : String} {pending : Pending} {todo : List Stmt}
      (hAt : w.program.code = before ++ Compile.mark label :: behind)
      (hTodo : Follows w declared (before ++ [Compile.mark label]) pending todo) :
      Follows w declared before pending todo
  | weaken {before : Code} {pending pending' : Pending} {todo : List Stmt}
      (hTodo : Follows w declared before pending' todo) (hFewer : ∀ x, pending' x → pending x) :
      Follows w declared before pending todo

theorem Lowers.follows {w : World} {declared : Store}
    {before code behind : Code} {pending : Pending} {stmts rest : List Stmt}
    (hCode : Lowers w.place declared pending stmts code after)
    (hAt : w.program.code = before ++ code ++ behind)
    (hRest : Follows w declared (before ++ code) after rest) :
    Follows w declared before pending (stmts ++ rest) := by
  induction stmts generalizing before code pending with
  | nil =>
    cases hCode
    rw [append_nil] at hRest
    exact hRest
  | cons _ _ ih =>
    cases hCode with
    | @cons _ _ _ _ _ _ _ hFirst hOthers =>
      rw [← append_assoc] at hAt hRest
      exact .cons (hAt.trans (append_assoc ..)) hFirst (ih hOthers hAt hRest)

/-
  The machine is where the statements are that are still to
  be executed, and pending variables have declared values.
-/
inductive Matches (w : World) (declared : Store) (s : State) (m : Machine) : Prop where
  | at {before : Code} {pending : Pending} (hRunning : Running w before s m)
      (hTodo : Follows w declared before pending s.todo)
      (hPending : ∀ x, pending x → s.store x = declared x)

/-
  The machine does what the interpreter does next. Where it
  takes no step, fewer statements are left.
-/
inductive Simulates (w : World) (declared : Store) (s : State) (m : Machine) : Prop where
  | proceeds {s' : State} {n : Nat} {m' : Machine} (hStep : s.step = (s', none))
      (hSteps : Steps n m m') (hNext : Matches w declared s' m')
      (hProgress : 0 < n ∨ s'.todo.length < s.todo.length)
  | halts {s' : State} {n : Nat} {m' : Machine} (hStep : s.step = (s', some .halted))
      (hSteps : Steps n m m') (hHalted : m'.halted = true) (hOutput : m'.output = s'.output)
  | fails {s' : State} {n : Nat} {m' last : Machine} {address : UInt16} {fault : Machine.InputFault}
      (hStep : s.step = (s', some (.failed fault))) (hSteps : Steps n m m')
      (hGoes : m'.halted = false) (hFault : m'.step = (last, some (.ofInput address fault)))
      (hOutput : last.output = s'.output)

section Statements

variable {w : World} {declared : Store} {before behind code : Code}
  {pending : Pending} {s : State} {m m' : Machine} {stmt : Stmt} {rest : List Stmt} {n : Nat}

/- Only variables, input and output matter to the machine. -/
theorem Running.congr
    (h : Running w before s m)
    (hStore : s'.store = s.store)
    (hInput : s'.input = s.input)
    (hOutput : s'.output = s.output) :
    Running w before s' m where
  toExecuting := h.toExecuting
  sp := h.sp
  store := hStore ▸ h.store
  input := h.input.trans hInput.symm
  output := h.output.trans hOutput.symm

/- Some steps may come before what simulates a statement. -/
theorem Simulates.prepend
    (hSteps : Steps n m m')
    (h : Simulates w declared s m') :
    Simulates w declared s m := by
  cases h with
  | proceeds hStep hMore hNext hProgress =>
    refine .proceeds hStep (hSteps.trans hMore) hNext ?_
    exact hProgress.imp_left (Nat.lt_of_lt_of_le · (Nat.le_add_left ..))
  | halts hStep hMore hHalted hOutput => exact .halts hStep (hSteps.trans hMore) hHalted hOutput
  | fails hStep hMore hGoes hFault hOutput =>
    exact .fails hStep (hSteps.trans hMore) hGoes hFault hOutput

theorem Running.halts
    (h : Running w before s m)
    (hSound : w.Sound)
    (hAt : w.program.code = before ++ .plain .stop :: behind)
    (hStep : s.step = s.finish .halted) :
    Simulates w declared s m := by
  have hObey : m.obey w.value (.plain .stop) =
      ({ m.passed w.value (.plain .stop) with halted := true }, none) := rfl
  exact .halts hStep (h.step hSound.fitting hAt hObey) rfl h.output

/-
  A statement that goes on with the next one, after some steps
  that lead behind its code.
-/
theorem Running.proceeds
    (h : Running w before s' m')
    (hSteps : Steps n m m')
    (hStep : s.step = s'.proceed todo)
    (hTodo : Follows w declared before pending todo)
    (hPending : ∀ x, pending x → s'.store x = declared x)
    (hProgress : 0 < n ∨ todo.length < s.todo.length) :
    Simulates w declared s m :=
  .proceeds hStep hSteps (.at (h.congr rfl rfl rfl) hTodo hPending) hProgress

/- Pending variables keep their values when others change. -/
theorem pending_set
    (hPending : ∀ y, pending y → s.store y = declared y)
    (hFree : ¬ pending x) :
    ∀ y, pending y → s.store.set x u y = declared y := by
  intro y hY
  have hOther : y ≠ x := by
    rintro rfl
    exact hFree hY
  unfold Store.set
  rw [if_neg hOther]
  exact hPending y hY

theorem step_print {arg : Expr}
    (hTodo : s.todo = .expr line (.call "print" [arg]) :: rest)
    (hValue : value? s.store arg = some u) :
    s.step = (Running.printed s u).proceed rest := by
  unfold State.step State.call
  rw [hTodo]
  simp only [hValue]
  rfl

/- A call with a value only computes. -/
theorem step_value {function : String} {args : List Expr}
    (hTodo : s.todo = .expr line (.call function args) :: rest)
    (hValue : value? s.store (.call function args) = some u) :
    s.step = s.proceed rest := by
  unfold value? at hValue
  split at hValue
  · split at hValue
    · next hInt =>
      subst hInt
      unfold State.step State.call
      rw [hTodo]
      simp only [hValue]
      rfl
    · cases hValue
  · cases hValue

theorem step_loop (hTodo : s.todo = .loop line test body :: rest) :
    ∀ holds, holds? s.store test = some holds → s.step = s.proceed
        (if holds then body ++ .loop line test body :: rest else rest) := by
  intro holds hHolds
  unfold State.step
  rw [hTodo]
  simp only [hHolds]
  cases holds <;> rfl

theorem step_cond (hTodo : s.todo = .cond line test body orElse :: rest) :
    ∀ holds, holds? s.store test = some holds →
      s.step = s.proceed (if holds then body ++ rest else orElse ++ rest) := by
  intro holds hHolds
  unfold State.step
  rw [hTodo]
  simp only [hHolds]
  cases holds <;> rfl

/- The label of a condition is that of its first instruction. -/
theorem Tests.first (h : Tests w.place start exit test code) :
    ∃ i others, code = i :: others ∧ i.label = start := by
  rcases h with ⟨_, _, hMade⟩
  rcases conditionCode_parts hMade with ⟨parts⟩
  rcases parts.labelled with ⟨i, others, hCode, hLabel, _⟩
  exact ⟨i, others, hCode, hLabel⟩

section Next

variable (h : Running w before s m) (hPending : ∀ y, pending y → s.store y = declared y)

include h hPending

/- An assignment without code sets what is declared. -/
theorem simulates_elided {v : Int64}
    (hTodo : s.todo = .assign line (.name x) [] (.literal v) :: rest)
    (hSelf : pending x)
    (hValue : declared x = wordOf v)
    (hRest : Follows w declared before (fun y => pending y ∧ y ≠ x) rest) :
    Simulates w declared s m := by
  have hSame : s.store.set x (wordOf v) = s.store := by
    funext y
    unfold Store.set
    split
    · next hEq => rw [hEq, hPending x hSelf, hValue]
    · rfl
  refine h.proceeds (.refl m) ?_ hRest (fun y hY => hPending y hY.1) (.inr ?_)
  · unfold State.step State.assign
    rw [hTodo]
    simp only [Script.Expr.readsInput, value?, Bool.false_eq_true, if_false, hSame]
    rfl
  · rw [hTodo]
    exact Nat.lt_succ_self _

variable (hSound : w.Sound)

include hSound

section

variable {value : Expr} {ref : Reference}
  (hTodo : s.todo = .assign line (.name x) [] value :: rest)
  (hFree : ¬ pending x) (hPlace : w.place x = some ref)
  (hMode : ref.mode = .direct)
include hTodo hFree hPlace hMode

/- A value is computed and stored, and none is pending there. -/
theorem simulates_stored
    (hInput : value.readsInput = false)
    (hCode : Computes w.place value code)
    (hAt : w.program.code =
      before ++ (code ++ [.of .stwa (.symbol ref.target) ref.mode]) ++ behind)
    (hRest : Follows w declared
      (before ++ (code ++ [.of .stwa (.symbol ref.target) ref.mode])) pending rest) :
    Simulates w declared s m := by
  rw [← append_assoc] at hRest
  rw [← append_assoc, append_assoc] at hAt
  rcases hCode.runs h hAt with ⟨middle, hSteps, hMiddle, hValue⟩
  have hDirect : ref.mode.addressing? = some .direct := hMode ▸ rfl
  have hStore := hMiddle.step hSound.fitting hAt
    (Machine.obey_store w.value middle .a (.symbol ref.target) nofun hDirect nofun)
  have hLast := (hMiddle.passed hSound hAt).setWord (u := middle.a) hSound hPlace hMode
  refine hLast.proceeds (hSteps.trans hStore) ?_ hRest
    (pending_set hPending hFree) (.inl (Nat.succ_pos _))
  unfold State.step State.assign
  rw [hTodo]
  simp only [hInput, hValue, Bool.false_eq_true, if_false]

/- A number is read from the input, or both fail on it. -/
theorem simulates_read
    (hInput : value.readsInput = true)
    (hAt : w.program.code = before ++ [.of .deci (.symbol ref.target) ref.mode] ++ behind)
    (hRest : Follows w declared
      (before ++ [.of .deci (.symbol ref.target) ref.mode]) pending rest) :
    Simulates w declared s m := by
  rw [append_assoc] at hAt
  have hDirect : ref.mode.addressing? = some .direct := hMode ▸ rfl
  have hObey := (h.step_eq hSound.fitting hAt).trans
    (Machine.obey_deci w.value m (.symbol ref.target) nofun hDirect nofun)
  rw [h.input] at hObey
  rcases hRead : Machine.readNumber s.input with ⟨fault | n, unread⟩
  · rw [hRead] at hObey
    have hStep : s.step = { s with input := unread }.finish (.failed fault) := by
      unfold State.step State.assign
      rw [hTodo]
      simp only [hInput, hRead, if_true]
    exact .fails hStep (.refl m) h.goes hObey h.output
  · rw [hRead] at hObey
    have hLast := ((h.passed hSound hAt).setWord (u := .ofInt n) hSound hPlace hMode).setInput
      unread { m.flags.ofWord (.ofInt n) with v := decide (n < -32768 ∨ n > 32767) }
    refine hLast.proceeds (.single h.goes hObey) ?_ hRest
      (pending_set hPending hFree) (.inl Nat.one_pos)
    unfold State.step State.assign
    rw [hTodo]
    simp only [hInput, hRead, if_true]

end

/-
  A condition that holds leads into the first block, and one
  that does not leads to its exit.
-/
theorem simulates_test {others : Code} {yes no : List Stmt} {pending' : Pending}
    (hStep : ∀ holds, holds? s.store test = some holds →
      s.step = s.proceed (if holds then yes else no))
    (hTest : Tests w.place start exit test condition)
    (hAt : w.program.code = before ++ condition ++ behind)
    (hGoal : w.program.code = goal ++ j :: others)
    (hLabel : j.label = exit)
    (hSome : exit ≠ "")
    (hYes : Follows w declared (before ++ condition) pending yes)
    (hNo : Follows w declared goal pending' no)
    (hFewer : ∀ x, pending' x → pending x) :
    Simulates w declared s m := by
  rcases hTest.runs h hSound hAt hGoal hLabel hSome with
    ⟨_, _, holds, hPos, hSteps, hHolds, hLast⟩
  have hNext := hStep holds hHolds
  cases holds with
  | true => exact hLast.proceeds hSteps hNext hYes hPending (.inl hPos)
  | false =>
    exact hLast.proceeds hSteps hNext hNo (fun y hY => hPending y (hFewer y hY)) (.inl hPos)

/-
  A loop goes into its body, behind which a jump leads back to
  the condition, or on to the mark at its end.
-/
theorem simulates_loop
    (hTodo : s.todo = .loop line test body :: rest)
    (hStart : start ≠ "")
    (hExit : exit ≠ "")
    (hTest : Tests w.place start exit test condition)
    (hBody : Lowers w.place declared pending body code pending)
    (hAt : w.program.code =
      before ++ (condition ++ code ++ [.jump .br start, mark exit]) ++ behind)
    (hSelf : Follows w declared before pending (.loop line test body :: rest))
    (hRest : Follows w declared
      (before ++ (condition ++ code ++ [.jump .br start, mark exit])) pending rest) :
    Simulates w declared s m := by
  rcases hTest.first with ⟨i, others, rfl, hFirst⟩
  have hTop : w.program.code = before ++ i :: (others ++ code
          ++ ([.jump .br start, mark exit] ++ behind)) := by
    rw [hAt]
    simp only [append_assoc, cons_append]
  have hJump : w.program.code = (before ++ (i :: others) ++ code)
          ++ .jump .br start :: mark exit :: behind := by
    rw [hAt]
    simp only [append_assoc, cons_append, nil_append]
  have hGoal := hJump.trans (append_cons ..)
  refine simulates_test h hPending hSound (step_loop hTodo) hTest
    (hJump.trans (append_assoc ..)) hGoal rfl hExit ?_ (.mark hGoal ?_) fun _ hX => hX
  · exact hBody.follows hJump (.jump hJump hTop hFirst hStart hSelf)
  · simp only [append_assoc, cons_append, nil_append] at hRest ⊢
    exact hRest

/-
  A conditional without an else part. Both ways lead to the
  mark behind it, where fewer variables are pending.
-/
theorem simulates_cond
    (hTodo : s.todo = .cond line test body [] :: rest)
    (hExit : exit ≠ "")
    (hTest : Tests w.place start exit test condition)
    (hBody : Lowers w.place declared pending body code after)
    (hAfter : ∀ x, after x → pending x)
    (hAt : w.program.code =
      before ++ (condition ++ code ++ [.jump .br exit, mark exit]) ++ behind)
    (hRest : Follows w declared
      (before ++ (condition ++ code ++ [.jump .br exit, mark exit])) after rest) :
    Simulates w declared s m := by
  have hJump : w.program.code = (before ++ condition ++ code)
          ++ .jump .br exit :: mark exit :: behind := by
    rw [hAt]
    simp only [append_assoc, cons_append, nil_append]
  have hGoal := hJump.trans (append_cons ..)
  have hNext : Follows w declared (before ++ condition ++ code ++ [.jump .br exit]) after rest := by
    refine .mark hGoal ?_
    simp only [append_assoc, cons_append, nil_append] at hRest ⊢
    exact hRest
  refine simulates_test h hPending hSound (step_cond hTodo) hTest
    (hJump.trans (append_assoc ..)) hGoal rfl hExit ?_ hNext hAfter
  exact hBody.follows hJump (.jump hJump hGoal rfl hExit hNext)

/- A conditional with two blocks, which meet behind the second. -/
theorem simulates_condElse {other : String} {elseCode : Code}
    {between : Pending}
    (hTodo : s.todo = .cond line test body orElse :: rest)
    (hExit : exit ≠ "")
    (hOther : other ≠ "")
    (hTest : Tests w.place start other test condition)
    (hBody : Lowers w.place declared pending body code between)
    (hOrElse : Lowers w.place declared between orElse elseCode after)
    (hBetween : ∀ x, between x → pending x)
    (hAfter : ∀ x, after x → between x)
    (hAt : w.program.code = before ++ (condition ++ code
      ++ [.jump .br exit, mark other] ++ elseCode ++ [mark exit]) ++ behind)
    (hRest : Follows w declared (before ++ (condition ++ code
      ++ [.jump .br exit, mark other] ++ elseCode ++ [mark exit])) after rest) :
    Simulates w declared s m := by
  have hJump : w.program.code = (before ++ condition ++ code) ++ .jump .br exit :: mark other
            :: (elseCode ++ ([mark exit] ++ behind)) := by
    rw [hAt]
    simp only [append_assoc, cons_append, nil_append]
  have hElse := hJump.trans (append_cons ..)
  have hGoal : w.program.code = (before ++ condition ++ code ++ [.jump .br exit]
          ++ [mark other] ++ elseCode) ++ mark exit :: behind := by
    rw [hAt]
    simp only [append_assoc, cons_append, nil_append]
  have hNext : Follows w declared (before ++ condition ++ code ++ [.jump .br exit]
        ++ [mark other] ++ elseCode) after rest := by
    refine .mark hGoal ?_
    simp only [append_assoc, cons_append, nil_append] at hRest ⊢
    exact hRest
  refine simulates_test h hPending hSound (step_cond hTodo) hTest
    (hJump.trans (append_assoc ..)) hElse rfl hOther ?_
    (.mark hElse (hOrElse.follows hGoal hNext)) hBetween
  exact hBody.follows hJump (.jump hJump hGoal rfl hExit (.weaken hNext hAfter))

/- The statement that is next. -/
theorem simulates_stmt
    (hCode : LowersStmt w.place declared pending stmt code after)
    (hTodo : s.todo = stmt :: rest)
    (hAt : w.program.code = before ++ code ++ behind)
    (hSelf : Follows w declared before pending (stmt :: rest))
    (hRest : Follows w declared (before ++ code) after rest) :
    Simulates w declared s m := by
  cases hCode with
  | pass =>
    rw [append_nil] at hRest
    refine h.proceeds (.refl m) ?_ hRest hPending (.inr ?_)
    · unfold State.step
      rw [hTodo]
    · rw [hTodo]
      exact Nat.lt_succ_self _
  | elided hIs hValue =>
    rw [append_nil] at hRest
    exact simulates_elided h hPending hTodo hIs hValue hRest
  | stored hFree hPlace hMode hInput hValue =>
    exact simulates_stored h hPending hSound hTodo hFree hPlace hMode hInput hValue hAt hRest
  | read hFree hPlace hMode hInput =>
    exact simulates_read h hPending hSound hTodo hFree hPlace hMode hInput hAt hRest
  | printOperand hPlace hScalar hSimple hDirect =>
    rcases hDirect.word w.value m hSimple with ⟨_, _, hMode, hWord⟩
    rw [← value?_of_simple hSimple] at hWord
    rw [append_assoc] at hAt
    rcases h.print hSound hAt hMode with ⟨_, hSteps, hLast⟩
    refine hLast.proceeds hSteps ?_ hRest hPending (.inl Nat.one_pos)
    exact step_print hTodo (h.value?_eq hPlace hScalar hWord)
  | printValue hArg =>
    rw [← append_assoc] at hRest
    rw [← append_assoc, append_assoc] at hAt
    rcases hArg.runs h hAt with ⟨_, hSteps, hMiddle, hValue⟩
    rcases hMiddle.print_scratch hSound hAt with ⟨_, hPrint, hLast⟩
    exact hLast.proceeds (hSteps.trans hPrint) (step_print hTodo hValue) hRest hPending
      (.inl (Nat.succ_pos _))
  | value _ hCode =>
    rcases hCode.runs h hAt with ⟨_, hSteps, hLast, hValue⟩
    refine hLast.proceeds hSteps (step_value hTodo hValue) hRest hPending (.inr ?_)
    rw [hTodo]
    exact Nat.lt_succ_self _
  | exit =>
    rw [append_assoc] at hAt
    refine h.halts hSound hAt ?_
    unfold State.step
    rw [hTodo]
    rfl
  | loop hStart hExit hTest hBody =>
    exact simulates_loop h hPending hSound hTodo hStart hExit hTest hBody hAt hSelf hRest
  | cond hExit hTest hBody hAfter =>
    exact simulates_cond h hPending hSound hTodo hExit hTest hBody hAfter hAt hRest
  | condElse hExit hOther hTest hBody hOrElse hBetween hAfter =>
    exact simulates_condElse h hPending hSound hTodo hExit hOther
      hTest hBody hOrElse hBetween hAfter hAt hRest

end Next

/- What follows is simulated, behind jumps and marks. -/
theorem Follows.simulates
    (hFollows : Follows w declared before pending todo)
    (h : Running w before s m)
    (hSound : w.Sound)
    (hTodo : s.todo = todo)
    (hPending : ∀ y, pending y → s.store y = declared y) :
    Simulates w declared s m := by
  induction hFollows generalizing m with
  | halt hAt =>
    refine h.halts hSound hAt ?_
    unfold State.step
    rw [hTodo]
  | exit hAt =>
    refine h.halts hSound hAt ?_
    unfold State.step
    rw [hTodo]
    rfl
  | cons hAt hCode hRest =>
    exact simulates_stmt h hPending hSound hCode hTodo hAt (.cons hAt hCode hRest) hRest
  | jump hAt hGoal hLabel hSome _ ih =>
    rcases h.jump hSound hAt hGoal hLabel hSome with ⟨_, hSteps, hLast⟩
    exact .prepend hSteps (ih hLast hTodo hPending)
  | mark hAt _ ih =>
    rcases h.executes (hAt.trans (append_cons ..)) (executes_mark _) with ⟨hSteps, hLast⟩
    exact .prepend hSteps (ih hLast hTodo hPending)
  | weaken _ hFewer ih => exact ih h hTodo fun y hY => hPending y (hFewer y hY)

theorem Matches.simulates
    (h : Matches w declared s m)
    (hSound : w.Sound) :
    Simulates w declared s m := by
  rcases h with ⟨hRunning, hTodo, hPending⟩
  exact hTodo.simulates hRunning hSound rfl hPending

end Statements

end Compile

end Pep9
