import Pep9.Proofs.Compile.Resolution
import Pep9.Proofs.Script.Indentation

/-
  The lines of errors. The error of a script has the line of
  the innermost statement that raised it: whose own code could
  not be made, or at which the analysis of its scope stopped.
  The statements around it pass the error on as it is.

  Key theorems: `parseSource_lined`, `stmtCode_outcome`,
  `blockCode_traced`, `generate_error_line`.
-/

namespace Pep9

open List Result

variable {α : Type} {stmt : Stmt}

namespace Script

variable {stmts : List Stmt}

/- The statements in the blocks of a statement. -/
def Stmt.blocks : Stmt → List Stmt
  | cond _ _ body orElse => body ++ orElse
  | loop _ _ body => body
  | each _ _ _ body => body
  | define _ _ _ body => body
  | _ => []

/- Statements that have lines, as all in their blocks have. -/
inductive Lined : List Stmt → Prop where
  | nil : Lined []
  | cons {stmt : Stmt} {rest : List Stmt} (hLine : stmt.line ≠ 0) (hBlocks : Lined stmt.blocks)
      (hRest : Lined rest) : Lined (stmt :: rest)

theorem Lined.append {first second : List Stmt}
    (hFirst : Lined first)
    (hSecond : Lined second) :
    Lined (first ++ second) := by
  induction hFirst with
  | nil => exact hSecond
  | cons hLine hBlocks _ _ ih => exact .cons hLine hBlocks ih

namespace Grammar

variable {ts : List Token}

theorem Simple.lined
    (h : Simple ts stmt)
    (hTokens : ∀ t ∈ ts, t.line ≠ 0) :
    Lined [stmt] := by
  cases h <;> exact .cons (hTokens _ mem_cons_self) .nil .nil

/- The parts of statements have lines, a conditional that of its word. -/
def Clause.Lined : (clause : Clause) → clause.Tree → Prop
  | statement _, stmt => Script.Lined [stmt]
  | branches line _, stmt => line ≠ 0 → Script.Lined [stmt]
  | block _, stmts => Script.Lined stmts
  | suite, stmts => Script.Lined stmts

/- Where tokens have lines, so has the tree. -/
theorem Clause.Derives.lined {clause : Clause} {tree : clause.Tree}
    (h : clause.Derives ts tree)
    (hTokens : ∀ t ∈ ts, t.line ≠ 0) :
    clause.Lined tree := by
  induction h with
  | simple h => exact h.lined (forall_mem_append.mp hTokens).1
  | conditional _ _ ih =>
    rw [forall_mem_cons] at hTokens
    exact ih hTokens.2 hTokens.1
  | loop _ _ _ ih =>
    simp only [forall_mem_cons, forall_mem_append] at hTokens
    exact .cons hTokens.1 (ih hTokens.2.2) .nil
  | each _ _ _ _ _ ih =>
    simp only [forall_mem_cons, forall_mem_append] at hTokens
    exact .cons hTokens.1 (ih hTokens.2.2.2.2) .nil
  | define _ _ _ _ _ _ _ ih =>
    simp only [forall_mem_cons, forall_mem_append] at hTokens
    exact .cons hTokens.1 (ih hTokens.2.2.2.2.2) .nil
  | only _ _ ih =>
    rw [forall_mem_append] at hTokens
    exact fun hLine => .cons hLine ((ih hTokens.2).append .nil) .nil
  | orElse _ _ _ _ ihBody ihElse =>
    simp only [forall_mem_cons, forall_mem_append] at hTokens
    exact fun hLine => .cons hLine ((ihBody hTokens.2.1).append (ihElse hTokens.2.2.2)) .nil
  | elif _ _ _ _ ihBody ihNested =>
    simp only [forall_mem_cons, forall_mem_append] at hTokens
    rcases hTokens with ⟨_, hBody, hWord, hNested⟩
    exact fun hLine => .cons hLine ((ihBody hBody).append (ihNested hNested hWord)) .nil
  | line _ h =>
    simp only [forall_mem_cons, forall_mem_append] at hTokens
    exact h.lined hTokens.2.1
  | indented _ _ _ _ _ ih =>
    simp only [forall_mem_cons, forall_mem_append] at hTokens
    exact ih hTokens.2.2.2.1
  | done => exact .nil
  | next _ _ ih ihOthers =>
    rw [forall_mem_append] at hTokens
    exact (ih hTokens.1).append (ihOthers hTokens.2)

theorem Program.lined
    (h : Program ts stmts)
    (hTokens : ∀ t ∈ ts, t.line ≠ 0) :
    Script.Lined stmts := by
  induction h with
  | empty => exact .nil
  | blank _ _ ih => exact ih (forall_mem_cons.mp hTokens).2
  | next h _ ih =>
    rw [forall_mem_append] at hTokens
    exact (h.lined hTokens.1).append (ih hTokens.2)
  | last h => exact h.lined hTokens

end Grammar

/- The statements of a text start on lines of it. -/
theorem parseSource_lined {source : String}
    (h : parseSource source = .ok stmts) :
    Lined stmts := by
  rcases parseSource_derives h with ⟨ts, rest, hLex, hProgram⟩
  refine hProgram.lined fun t hT hLine => ?_
  have hOne := ((Bracketed.of_lex hLex).lines t (mem_append_left _ hT)).1
  omega

end Script

open Script (Stmt Lined)

namespace Compile

variable {stmts : List Stmt} {s : Stmt} {e : Error}

theorem flatten_append
    (outer : Int)
    (first second : List Stmt) :
    flatten outer (first ++ second) = flatten outer first ++ flatten outer second := by
  induction first with
  | nil => rfl
  | cons _ _ ih => rw [cons_append, flatten, flatten, ih, append_assoc]

/- Where all statements have lines, none gets that of another. -/
theorem flatten_lined
    (h : Lined stmts)
    (outer : Int) :
    ∀ s ∈ flatten outer stmts, s.line = s.stmt.line ∧ s.stmt.line ≠ 0 := by
  induction h generalizing outer with
  | nil => nofun
  | @cons stmt rest hLine _ _ ihBlocks ihRest =>
    rw [flatten, forall_mem_append]
    refine ⟨?_, ihRest outer⟩
    cases stmt with
    | cond =>
      rw [flattenStmt, ← flatten_append]
      exact ihBlocks _
    | loop | each => exact ihBlocks _
    | _ => exact forall_mem_singleton.mpr ⟨if_neg hLine, hLine⟩

/- An error with the line of a statement that causes it. -/
def Traced (P : Stmt → Cause → Prop) (e : Error) : Prop :=
  ∃ s cause, P s cause ∧ s.line ≠ 0 ∧ e = (Error.of cause).atLine s.line

namespace Traced

variable {P Q : Stmt → Cause → Prop}

theorem mono
    (h : Traced P e)
    (hAll : ∀ s cause, P s cause → Q s cause) :
    Traced Q e := by
  rcases h with ⟨s, cause, hP, hRest⟩
  exact ⟨s, cause, hAll s cause hP, hRest⟩

/- An error without a line gets that of the statement. -/
theorem of_bare
    (hBare : e.line = 0)
    (hLine : s.line ≠ 0)
    (h : P s e.cause) :
    Traced P (e.atLine s.line) := by
  rcases e with ⟨_, cause⟩
  cases hBare
  exact ⟨s, cause, h, hLine, rfl⟩

/- A statement around the one that causes an error keeps its line. -/
theorem atLine (h : Traced P e) (outer : Int) : e.atLine outer = e := by
  rcases h with ⟨s, cause, _, hLine, rfl⟩
  unfold Error.atLine
  by_cases hHas : cause.hasLine = true <;> simp [Error.of, hHas, hLine]

end Traced

/- An analysis stops at a statement behind those that pass. -/
inductive Stops {σ : Type} (add : σ → Stmt → Except Error σ) :
    σ → List Stmt → Stmt → Cause → Prop where
  | here {a : σ} {s : Stmt} {rest : List Stmt} {cause : Cause} (h : add a s = .error (.of cause)) :
      Stops add a (s :: rest) s cause
  | later {a a₁ : σ} {first s : Stmt} {rest : List Stmt} {cause : Cause} (h : add a first = .ok a₁)
      (hLater : Stops add a₁ rest s cause) : Stops add a (first :: rest) s cause

theorem analysis_traced {σ : Type} {add : σ → Stmt → Except Error σ}
    (hBare : ∀ a s, Bare (add a s))
    (hLined : Lined stmts)
    (start : σ) :
    Fails (Traced (Stops add start (opened stmts)))
      ((flatten 0 stmts).foldlM (fun a s => located s.line (add a s.stmt)) start) := by
  have hLines := flatten_lined hLined 0
  unfold opened
  generalize flatten 0 stmts = items at hLines
  induction items generalizing start with
  | nil => trivial
  | cons first rest ih =>
    rw [forall_mem_cons] at hLines
    rw [foldlM_cons, map_cons]
    rcases hAdd : add start first.stmt with e | next
    · change Traced _ (e.atLine first.line)
      have hLine := ((hBare _ _).of_error hAdd).1
      rw [hLines.1.1]
      refine .of_bare hLine hLines.1.2 (.here ?_)
      rw [hAdd, Error.of, ← hLine]
    · exact (ih next hLines.2).mono fun _ h => h.mono fun _ _ => .later hAdd

------------------------------------------------------------
-- Heads of Statements
------------------------------------------------------------

/-
  What is done for a statement by itself, and the state in
  which its blocks are compiled.
-/
def Generator.head (g : Generator) : Stmt → Except Error Generator
  | .assign _ first others value => (g.assignCode first others value).map Prod.snd
  | .augment _ _ op _ => .error (.unsupported (.augmented op.symbol))
  | .expr _ value => (g.exprStmtCode value).map fun _ => g
  | .ret _ value => (g.returnCode value).map fun _ => g
  | .loop _ test _ => do
      let (start, g₁) ← g.label loopStem g.loops
      let (exit, g₂) ← g₁.label loopEndStem g.loops
      let _ ← g₂.context.conditionCode start exit test
      return { g₂ with loops := g.loops + 1 }
  | .cond _ test _ orElse => do
      let (start, g₁) ← g.label condStem g.conds
      let (exit, g₂) ← g₁.label condEndStem g.conds
      let (other, g₃) ← if orElse.isEmpty then .ok (exit, g₂) else g₂.label elseStem g.conds
      let _ ← g₃.context.conditionCode start other test
      return { g₃ with conds := g.conds + 1 }
  | .define _ name params body => (g.enter name params body).map Prod.snd
  | .pass _ => .ok g
  | .each _ _ _ _ => .error (.unsupported .forLoop)
  | .breakLoop _ => .error (.unsupported .breakLoop)
  | .continueLoop _ => .error (.unsupported .continueLoop)

/- The outcome of a computation without its result. -/
def outcome {α : Type} (x : Except Error α) : Except Error Unit :=
  x.map fun _ => ()

theorem outcome_ends {β : Type}
    (x : Except Error α)
    (f : α → β) :
    outcome (x >>= fun a => .ok (f a)) = outcome x := by
  cases x <;> rfl

theorem outcome_blockCode_append
    (g : Generator)
    (first second : List Stmt) :
    outcome (blockCode g (first ++ second)) =
      blockCode g first >>= fun p => outcome (blockCode p.2 second) := by
  induction first generalizing g with
  | nil => rfl
  | cons stmt rest ih =>
    rw [cons_append, blockCode, blockCode]
    rcases stmtCode g stmt with _ | ⟨_, g₁⟩
    · rfl
    · rw [bind_assoc, ok_bind, ok_bind]
      refine (outcome_ends _ _).trans ((ih g₁).trans ?_)
      dsimp only
      rcases blockCode g₁ rest with _ | _ <;> rfl

/- A statement fails with its head or with its blocks. -/
theorem stmtCode_outcome
    (g : Generator)
    (stmt : Stmt) :
    outcome (stmtCode g stmt) =
      located stmt.line (g.head stmt >>= fun g₁ => outcome (blockCode g₁ stmt.blocks)) := by
  cases stmt with
  | assign _ first others value =>
    rw [stmtCode, Generator.head]
    rcases g.assignCode first others value with _ | _ <;> rfl
  | expr _ value =>
    rw [stmtCode, Generator.head]
    rcases g.exprStmtCode value with _ | _ <;> rfl
  | ret _ value =>
    rw [stmtCode, Generator.head]
    rcases g.returnCode value with _ | _ <;> rfl
  | loop _ test body =>
    rw [stmtCode, Generator.head, Stmt.blocks]
    rcases g.label loopStem g.loops with _ | ⟨start, g₁⟩
    · rfl
    · simp only [ok_bind]
      rcases g₁.label loopEndStem g.loops with _ | ⟨exit, g₂⟩
      · rfl
      · simp only [ok_bind]
        rcases g₂.context.conditionCode start exit test with _ | _
        · rfl
        · change _ = located _ (outcome (blockCode { g₂ with loops := g.loops + 1 } body))
          rw [ok_bind]
          rcases blockCode { g₂ with loops := g.loops + 1 } body with _ | _ <;> rfl
  | cond _ test body orElse =>
    rw [stmtCode, Generator.head, Stmt.blocks]
    rcases g.label condStem g.conds with _ | ⟨start, g₁⟩
    · rfl
    · simp only [ok_bind]
      rcases g₁.label condEndStem g.conds with _ | ⟨exit, g₂⟩
      · rfl
      · simp only [ok_bind]
        by_cases hNone : orElse.isEmpty = true
        · rw [if_pos hNone, if_pos hNone]
          rcases g₂.context.conditionCode start exit test with _ | _
          · rfl
          · rw [List.isEmpty_iff.mp hNone, append_nil]
            change _ = located _ (outcome (blockCode { g₂ with conds := g.conds + 1 } body))
            rw [ok_bind]
            rcases blockCode { g₂ with conds := g.conds + 1 } body with _ | _ <;> rfl
        · rw [if_neg hNone, if_neg hNone]
          rcases g₂.label elseStem g.conds with _ | ⟨other, g₃⟩
          · rfl
          · simp only [ok_bind]
            rcases g₃.context.conditionCode start other test with _ | _
            · rfl
            · change _ = located _ (outcome (blockCode { g₃ with conds := g.conds + 1 } _))
              rw [outcome_blockCode_append, ok_bind]
              rcases blockCode { g₃ with conds := g.conds + 1 } body with _ | ⟨_, g₄⟩
              · rfl
              · simp only [ok_bind]
                rcases blockCode g₄ orElse with _ | _ <;> rfl
  | define _ name params body =>
    rw [stmtCode, Generator.head, Stmt.blocks]
    rcases g.enter name params body with _ | ⟨entry, g₁⟩
    · rfl
    · change _ = located _ (outcome (blockCode g₁ body))
      rw [ok_bind]
      dsimp only
      rcases blockCode g₁ body with _ | _ <;> rfl
  | augment | pass | each | breakLoop | continueLoop => rfl

/- A result whose error has no line yet. -/
abbrev Lineless {α : Type} (x : Except Error α) : Prop :=
  Fails (fun e => e.line = 0) x

theorem Bare.lineless {x : Except Error α} (hX : Bare x) : Lineless x :=
  hX.mono fun _ h => h.1

theorem Reads.lineless {P : Int64 → Prop} {ctx : Context} {p : List Script.Expr}
    {Q : α → Prop} {x : Except Error α}
    (hX : Reads P ctx p Q x) :
    Lineless x := by
  cases x with
  | ok => trivial
  | error => exact hX.1

theorem assignCode_lineless
    (g : Generator)
    (first : Script.Place)
    (others : List Script.Place)
    (value : Script.Expr) :
    Lineless (g.assignCode first others value) := by
  refine (checkTargets_bare others).lineless.bind fun _ => ?_
  cases first with
  | name id =>
    change Lineless (g.assignName id value)
    unfold Generator.assignName
    split
    · next hRef =>
      split
      · rfl
      · exact (reference_reads (P := fun _ => True) id).lineless.of_error hRef
    · split
      · trivial
      · split
        · rfl
        · split
          · rfl
          · exact (storeCode_reads (passes_always _) _ _ _).lineless.bind fun _ => trivial
  | element base position =>
    refine Fails.bind ?_ fun _ => trivial
    exact (assignElement_reads (passes_always _) base position value).lineless

theorem conditionCode_lineless
    (ctx : Context)
    (label exit : String)
    (test : Script.Expr) :
    Lineless (ctx.conditionCode label exit test) :=
  (conditionCode_reads (P := fun _ => True) label exit test).lineless

/- Only the analysis of a function gives lines to errors of heads. -/
theorem head_fails
    (g : Generator)
    (stmt : Stmt) :
    Fails (fun e => e.line = 0 ∨ ∃ line name params body, stmt = .define line name params body ∧
        g.checkDefinition name = .ok () ∧ (g.table.bindGlobal .label name).isOk = true ∧
          analyzeFunction g.usual name params body = .error e) (g.head stmt) := by
  cases stmt with
  | define line name params body =>
    refine ((enter_fails g name params body).mono fun e h => ?_).map
    rcases h with h | h
    · exact .inl h.1
    · exact .inr ⟨line, name, params, body, rfl, h⟩
  | pass => trivial
  | augment | each | breakLoop | continueLoop => exact .inl rfl
  | assign _ first others value =>
    exact ((assignCode_lineless g first others value).mono fun _ => .inl).map
  | expr _ value =>
    have hOwn := (exprStmtCode_reads (passes_always g.context) trivial value).lineless
    exact (hOwn.mono fun _ => .inl).map
  | ret _ value =>
    have hOwn := (returnCode_reads (passes_always g.context) (fun _ _ => trivial) value).lineless
    exact (hOwn.mono fun _ => .inl).map
  | loop _ test _ =>
    refine Fails.mono ?_ fun _ => .inl
    refine (label_bare _ _ _).lineless.bind fun (start, g₁) => ?_
    refine (label_bare _ _ _).lineless.bind fun (exit, g₂) => ?_
    exact (conditionCode_lineless _ _ _ _).bind fun _ => trivial
  | cond _ test _ orElse =>
    refine Fails.mono ?_ fun _ => .inl
    refine (label_bare _ _ _).lineless.bind fun (start, g₁) => ?_
    refine (label_bare _ _ _).lineless.bind fun (exit, g₂) => ?_
    dsimp only
    split
    · exact (conditionCode_lineless _ _ _ _).bind fun _ => trivial
    · refine (label_bare _ _ _).lineless.bind fun (other, g₃) => ?_
      exact (conditionCode_lineless _ _ _ _).bind fun _ => trivial

/-
  A statement of a block raises an error: its own code cannot
  be made, or the analysis of the function around it stops at
  it. All that comes before it in the text is compiled.
-/
inductive Raises : Generator → List Stmt → Stmt → Cause → Prop where
  | head {g : Generator} {stmt : Stmt} {rest : List Stmt} {cause : Cause}
      (h : g.head stmt = .error (.of cause)) : Raises g (stmt :: rest) stmt cause
  | analysis {g : Generator} {line : Int} {name : String} {params : List String}
      {body rest : List Stmt} {s : Stmt} {cause : Cause} (hCheck : g.checkDefinition name = .ok ())
      (hLabel : (g.table.bindGlobal .label name).isOk = true)
      (h : Stops (Signature.add g.usual) (.ofHead name params) (opened body) s cause) :
      Raises g (.define line name params body :: rest) s cause
  | inner {g g₁ : Generator} {stmt s : Stmt} {rest : List Stmt} {cause : Cause}
      (h : g.head stmt = .ok g₁) (hInner : Raises g₁ stmt.blocks s cause) :
      Raises g (stmt :: rest) s cause
  | later {g g₁ : Generator} {stmt s : Stmt} {rest : List Stmt} {code : Code} {cause : Cause}
      (h : stmtCode g stmt = .ok (code, g₁)) (hLater : Raises g₁ rest s cause) :
      Raises g (stmt :: rest) s cause

/- One statement, provided that its blocks are as they should be. -/
theorem stmtCode_traced {g : Generator} {rest : List Stmt}
    (hLine : stmt.line ≠ 0)
    (hLined : Lined stmt.blocks)
    (hBlocks : ∀ g₁, Fails (Traced (Raises g₁ stmt.blocks)) (blockCode g₁ stmt.blocks)) :
    Fails (Traced (Raises g (stmt :: rest))) (stmtCode g stmt) := by
  have hOutcome := stmtCode_outcome g stmt
  rcases hStmt : stmtCode g stmt with e | _
  · rw [hStmt] at hOutcome
    change Traced _ e
    rcases hHead : g.head stmt with e' | g₁
    · rw [hHead] at hOutcome
      cases (hOutcome : Except.error e = .error (e'.atLine stmt.line))
      rcases (head_fails g stmt).of_error hHead with
        hBare | ⟨_, _, _, _, rfl, hCheck, hLabel, hAnalysis⟩
      · refine .of_bare hBare hLine (.head ?_)
        rw [hHead, Error.of, ← hBare]
      · have hTraced := (analysis_traced (Signature.add_bare g.usual) hLined _).of_error hAnalysis
        rw [hTraced.atLine]
        exact hTraced.mono fun _ _ => .analysis hCheck hLabel
    · rw [hHead, ok_bind] at hOutcome
      rcases hInner : blockCode g₁ stmt.blocks with e' | _
      · rw [hInner] at hOutcome
        cases (hOutcome : Except.error e = .error (e'.atLine stmt.line))
        have hTraced := (hBlocks g₁).of_error hInner
        rw [hTraced.atLine]
        exact hTraced.mono fun _ _ => .inner hHead
      · rw [hInner] at hOutcome
        cases hOutcome
  · trivial

/- The errors of a block, by induction on its nesting. -/
theorem blockCode_traced
    (h : Lined stmts)
    (g : Generator) :
    Fails (Traced (Raises g stmts)) (blockCode g stmts) := by
  induction h generalizing g with
  | nil => trivial
  | @cons stmt rest hLine hLined _ ihBlocks ihRest =>
    rw [blockCode]
    rcases hFirst : stmtCode g stmt with e | ⟨first, g₁⟩
    · exact (stmtCode_traced hLine hLined ihBlocks).of_error hFirst
    · rw [ok_bind]
      refine Fails.bind ?_ fun _ => trivial
      exact (ihRest g₁).mono fun _ h => h.mono fun _ _ => .later hFirst

------------------------------------------------------------
-- Whole Scripts
------------------------------------------------------------

/-
  The statement that stops the compilation of a script: the
  analysis of the top level stops at it, or it raises an error
  when code is made.
-/
inductive Stopped (options : Options) (table : SymbolTable) (script : List Stmt) :
    Stmt → Cause → Prop where
  | globals {s : Stmt} {cause : Cause}
      (h : Stops (Globals.add options.usual) .empty (opened script) s cause) :
      Stopped options table script s cause
  | code {globals : Globals} {bound : SymbolTable} {data : List Listing.Declaration}
      {entry : String} {g : Generator} {s : Stmt} {cause : Cause}
      (hGlobals : analyzeGlobals options.usual script = .ok globals)
      (hData : allocateGlobals table globals.vars = (bound, .ok data))
      (hEntry : (Generator.start options.usual globals bound).label landingStem 1 = .ok (entry, g))
      (h : Raises g script s cause) : Stopped options table script s cause

/- The first label is short, so that only a name can be missing. -/
theorem landing_exhausts (g : Generator) :
    Exhausts (g.label landingStem 1) := by
  refine Fails.bind ?_ fun _ => trivial
  unfold SymbolTable.generate
  dsimp only
  rw [if_neg (by decide)]
  split
  · next hError => exact (freeTarget_exhausts _ _ _ _).of_error hError
  · trivial

theorem generate_traced {script : List Stmt}
    (h : Lined script)
    (options : Options)
    (table : SymbolTable) :
    Fails (fun e => (∃ kind name, e = .of (.namesExhausted kind name)) ∨
        Traced (Stopped options table script) e) (generate options table script) := by
  unfold generate
  rcases hGlobals : analyzeGlobals options.usual script with _ | globals
  · have hTraced := (analysis_traced (Globals.add_bare options.usual) h _).of_error hGlobals
    exact .inr (hTraced.mono fun _ _ => .globals)
  · rw [ok_bind]
    have hExhausts := allocateGlobals_exhausts table globals.vars
    rcases hData : allocateGlobals table globals.vars with ⟨bound, _ | data⟩
    · rw [hData] at hExhausts
      exact .inl hExhausts
    · dsimp only
      rw [ok_bind]
      change Fails _ ((Generator.start options.usual globals bound).label landingStem 1 >>= _)
      rcases hEntry : (Generator.start options.usual globals bound).label landingStem 1 with
        _ | ⟨entry, g⟩
      · exact .inl ((landing_exhausts _).of_error hEntry)
      · rw [ok_bind]
        refine Fails.bind ?_ fun _ => trivial
        exact (blockCode_traced h g).mono fun _ h =>
          .inr (h.mono fun _ _ => .code hGlobals hData hEntry)

/-
  If a script that is read from its text does not compile, the
  line of the error is that of the statement that stops the
  compilation, whatever statements are around it.
-/
theorem generate_error_line {source : String} {script : List Stmt}
    {options : Options} {table : SymbolTable} {e : Error}
    (hParsed : Script.parseSource source = .ok script)
    (hError : generate options table script = .error e)
    (hCause : e.cause.hasLine = true) :
    ∃ s, Stopped options table script s e.cause ∧ e.line = s.line := by
  have hFails := generate_traced (Script.parseSource_lined hParsed) options table
  rcases hFails.of_error hError with ⟨_, _, rfl⟩ | ⟨s, cause, hStopped, _, rfl⟩
  · cases hCause
  · rw [Nameless.cause_atLine] at hCause ⊢
    refine ⟨s, hStopped, ?_⟩
    unfold Error.atLine
    rw [if_pos ⟨rfl, hCause⟩]

/- An unknown name in an else branch in a loop in a function. -/
def nestedMistake : String :=
  "def f(a):\n    while a < 3:\n        if a < 2:\n            a = a + 1\n"
    ++ "        else:\n            print(k)\nf(0)\n"

theorem generate_error_line_nested :
    ∃ script s, Script.parseSource nestedMistake = .ok script ∧
      generate ⟨0, ""⟩ .empty script = .error ⟨6, .undefinedName "k"⟩ ∧
        Stopped ⟨0, ""⟩ .empty script s (.undefinedName "k") ∧ s.line = 6 := by
  have hRefused : ((Script.parseSource nestedMistake).toOption.any fun script =>
        failsWith ⟨6, .undefinedName "k"⟩ (generate ⟨0, ""⟩ .empty script)) = true := by
    decide +kernel
  rcases Result.any_eq_true.mp hRefused with ⟨script, hParsed, hFails⟩
  have hError := failsWith_eq_true.mp hFails
  rcases generate_error_line hParsed hError rfl with ⟨s, hStopped, hLine⟩
  exact ⟨script, s, hParsed, hError, hStopped, hLine.symm⟩

end Compile

end Pep9
