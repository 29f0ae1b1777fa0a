import Mathlib.Data.List.Forall2
import Pep9.Proofs.Compile.Balance
import Pep9.Proofs.Compile.Frames

/-
  Layouts of blocks. All functions that a block defines stand
  in its layout, each as an island in the stream around it,
  and between any two statements the stack is at the level of
  their scope.

  Key theorems: `blockLaid_cons`, `Emits.laid`.
-/

namespace Pep9

open List
open Script (Expr Stmt)

variable {k : Nat} {base : Int} {orElse rest stmts : List Stmt} {other : String}

namespace Compile

/- A function that a script defines. -/
structure Definition where
  name : String
  params : List String
  body : List Stmt

mutual

/- The functions that a statement defines. -/
def stmtDefinitions : Stmt → List Definition
  | .loop _ _ body => definitions body
  | .cond _ _ body orElse => definitions body ++ definitions orElse
  | .define _ name params body => [⟨name, params, body⟩]
  | _ => []

/- The functions that a block defines, in their order. -/
def definitions : List Stmt → List Definition
  | [] => []
  | stmt :: rest => stmtDefinitions stmt ++ definitions rest

end

mutual

/-
  A place in the code of a block before, between or behind
  its statements, or those of the blocks in them.
-/
inductive Boundary : Generator → List Stmt → Nat → Prop where
  | here (g : Generator) (stmts : List Stmt) : Boundary g stmts 0
  | behind {g g₁ : Generator} {stmt : Stmt} {rest : List Stmt} {first : Code} {k : Nat}
      (hFirst : stmtCode g stmt = .ok (first, g₁)) (hRest : Boundary g₁ rest k) :
      Boundary g (stmt :: rest) (first.length + k)
  | within {g : Generator} {stmt : Stmt} {rest : List Stmt} {k : Nat}
      (hInner : InnerBoundary g stmt k) : Boundary g (stmt :: rest) k

/- Such a place in a block of a loop or of a conditional. -/
inductive InnerBoundary : Generator → Stmt → Nat → Prop where
  | loop {g g₁ g₂ : Generator} {line : Int} {test : Expr}
      {body : List Stmt} {start exit : String} {condition : Code} {k : Nat}
      (hStart : g.label loopStem g.loops = .ok (start, g₁))
      (hExit : g₁.label loopEndStem g.loops = .ok (exit, g₂))
      (hTest : g₂.context.conditionCode start exit test = .ok condition)
      (hBody : Boundary { g₂ with loops := g.loops + 1 } body k) :
      InnerBoundary g (.loop line test body) (condition.length + k)
  | cond {g g₁ g₂ : Generator} {line : Int} {test : Expr}
      {body : List Stmt} {start exit : String} {condition : Code} {k : Nat}
      (hStart : g.label condStem g.conds = .ok (start, g₁))
      (hExit : g₁.label condEndStem g.conds = .ok (exit, g₂))
      (hTest : g₂.context.conditionCode start exit test = .ok condition)
      (hBody : Boundary { g₂ with conds := g.conds + 1 } body k) :
      InnerBoundary g (.cond line test body []) (condition.length + k)
  | condBody {g g₁ g₂ g₃ : Generator} {line : Int} {test : Expr}
      {body orElse : List Stmt} {start exit other : String} {condition : Code} {k : Nat}
      (hElse : orElse.isEmpty = false) (hStart : g.label condStem g.conds = .ok (start, g₁))
      (hExit : g₁.label condEndStem g.conds = .ok (exit, g₂))
      (hOther : g₂.label elseStem g.conds = .ok (other, g₃))
      (hTest : g₃.context.conditionCode start other test = .ok condition)
      (hBody : Boundary { g₃ with conds := g.conds + 1 } body k) :
      InnerBoundary g (.cond line test body orElse) (condition.length + k)
  | condElse {g g₁ g₂ g₃ g₄ : Generator} {line : Int} {test : Expr}
      {body orElse : List Stmt} {start exit other : String} {condition code : Code} {k : Nat}
      (hElse : orElse.isEmpty = false) (hStart : g.label condStem g.conds = .ok (start, g₁))
      (hExit : g₁.label condEndStem g.conds = .ok (exit, g₂))
      (hOther : g₂.label elseStem g.conds = .ok (other, g₃))
      (hTest : g₃.context.conditionCode start other test = .ok condition) (hBody :
        blockCode { g₃ with conds := g.conds + 1 } body = .ok (code, g₄))
      (hOrElse : Boundary g₄ orElse k) : InnerBoundary g (.cond line test body orElse)
        (condition.length + code.length + 2 + k)

end

/- A place of a layout at which control is at some level. -/
def Layout.Rests (layout : Layout) (base : Int) (k : Nat) : Prop :=
  ∃ before behind : Layout, layout = before ++ behind ∧ before.code.length = k ∧
      behind.chart.entry (some base) = some base

variable {layout : Layout} {ctx ctx' : Context} {stmt : Stmt} {code : Code} {g g' : Generator}

/- Such a place with more code before and behind. -/
theorem Layout.Rests.between
    (h : layout.Rests base k)
    (head : Layout)
    {tail : Layout}
    (hTail : tail.chart.entry (some base) = some base) :
    Layout.Rests (head ++ layout ++ tail) base (head.code.length + k) := by
  rcases h with ⟨before, behind, rfl, rfl, hEntry⟩
  refine ⟨head ++ before, behind ++ tail, ?_, ?_, ?_⟩
  · simp only [append_assoc]
  · rw [Layout.code_append, length_append]
  · rw [Layout.chart_append, Chart.entry_append, hTail, hEntry]

theorem Context.base_congr (h : ctx'.function = ctx.function) :
    ctx'.base = ctx.base := by
  unfold Context.base
  rw [h]

theorem Seated.congr
    (hSeated : Seated ctx layout)
    (h : ctx'.function = ctx.function) :
    Seated ctx' layout := by
  refine ⟨?_, ?_⟩
  · rw [Context.base_congr h, h]
    exact hSeated.flows
  · rw [Context.base_congr h]
    exact hSeated.enters

theorem Ends.congr
    (hEnds : Ends ctx layout)
    (h : ctx'.function = ctx.function) :
    Ends ctx' layout := by
  refine ⟨hEnds.linked, ?_⟩
  rw [Context.base_congr h]
  exact hEnds.enters

/- A function in the code is that of a definition. -/
structure Fits (usual : Int64) (d : Definition) (f : Island) : Prop where
  analyzed : analyzeFunction usual d.name d.params d.body = .ok f.sig
  name_eq : f.sig.name = d.name

/-
  A layout of generated code. Its functions are those that
  are defined there, and only those.
-/
structure Laid (g : Generator) (defined : List Definition) (code : Code)
    (g' : Generator) (layout : Layout) : Prop where
  code_eq : layout.code = code
  seated : Seated g.context layout
  solid : g.inside.isSome = true → layout.islands = []
  functions : List.Forall₂ (Fits g.usual) defined layout.islands
  labels : g'.table.labels = g.table.labels ++ layout.islands.map Island.binding
  function_eq : g'.context.function = g.context.function
  usual : g'.usual = g.usual
  countable : g'.context.Countable

theorem Generator.isSome_eq (g : Generator) :
    g.inside.isSome = g.context.function.isSome := by
  unfold Generator.context
  cases g.inside with
  | none | some => rfl

namespace Laid

variable {g₁ g₂ : Generator} {defined₁ defined₂ defined : List Definition}
  {code₁ code₂ : Code} {layout₁ layout₂ : Layout}

theorem append
    (h₁ : Laid g defined₁ code₁ g₁ layout₁)
    (h₂ : Laid g₁ defined₂ code₂ g₂ layout₂) :
    Laid g (defined₁ ++ defined₂) (code₁ ++ code₂) g₂ (layout₁ ++ layout₂) where
  code_eq := by rw [Layout.code_append, h₁.code_eq, h₂.code_eq]
  seated := h₁.seated.append (h₂.seated.congr h₁.function_eq.symm)
  solid := by
    intro hInside
    rw [Layout.islands_append, h₁.solid hInside, nil_append]
    refine h₂.solid ?_
    rwa [Generator.isSome_eq, h₁.function_eq, ← Generator.isSome_eq]
  functions := by
    rw [Layout.islands_append]
    exact rel_append h₁.functions (h₁.usual ▸ h₂.functions)
  labels := by
    rw [h₂.labels, h₁.labels, Layout.islands_append, map_append, append_assoc]
  function_eq := h₂.function_eq.trans h₁.function_eq
  usual := h₂.usual.trans h₁.usual
  countable := h₂.countable

/- Labels may be taken before. -/
theorem of_steady
    (hSteady : Steady g g₁)
    (h : Laid g₁ defined code g₂ layout) :
    Laid g defined code g₂ layout := by
  have hFunction := hSteady.alike.function
  refine {
    code_eq := h.code_eq
    seated := h.seated.congr hFunction.symm
    solid := ?_
    functions := hSteady.usual ▸ h.functions
    labels := hSteady.labels ▸ h.labels
    function_eq := h.function_eq.trans hFunction
    usual := h.usual.trans hSteady.usual
    countable := h.countable }
  intro _
  refine h.solid ?_
  rwa [Generator.isSome_eq, hFunction, ← Generator.isSome_eq]

/- Code around that defines no functions. -/
theorem reseat
    (h : Laid g defined code₁ g₁ layout₁)
    (hSeated : Seated g.context layout₂)
    (hCode : layout₂.code = code₂)
    (hIslands : layout₂.islands = layout₁.islands) :
    Laid g defined code₂ g₁ layout₂ where
  code_eq := hCode
  seated := hSeated
  solid := hIslands ▸ h.solid
  functions := hIslands ▸ h.functions
  labels := hIslands ▸ h.labels
  function_eq := h.function_eq
  usual := h.usual
  countable := h.countable

end Laid

theorem closes_cons_cons {next : Stmt}
    (h : Closes (stmt :: next :: rest)) :
    Closes (next :: rest) := by
  unfold Closes endsWithReturn endsWithExit at h ⊢
  rwa [getLast?_cons_cons] at h

def StmtLaid (g : Generator) (stmt : Stmt) (code : Code) (g' : Generator) : Prop :=
  stmtCode g stmt = .ok (code, g') ∧ ∃ layout, Laid g (stmtDefinitions stmt) code g' layout ∧
        (Closes [stmt] → Ends g.context layout) ∧
        ∀ k, InnerBoundary g stmt k → layout.Rests g.context.base k

def BlockLaid (g : Generator) (stmts : List Stmt) (code : Code) (g' : Generator) : Prop :=
  blockCode g stmts = .ok (code, g') ∧ ∃ layout, Laid g (definitions stmts) code g' layout ∧
        (stmts = [] → layout = []) ∧ (Closes stmts → Ends g.context layout) ∧
        ∀ k, Boundary g stmts k → layout.Rests g.context.base k

theorem BlockLaid.countable (h : BlockLaid g stmts code g') :
    g'.context.Countable := by
  rcases h with ⟨_, _, hLaid, _⟩
  exact hLaid.countable

theorem blockLaid_nil (hCalls : g.context.Countable) : BlockLaid g [] [] g := by
  refine ⟨by rw [blockCode], [], ?_, fun _ => rfl, ?_, ?_⟩
  · exact {
      code_eq := rfl
      seated := seated_nil _
      solid := fun _ => rfl
      functions := by
        rw [definitions]
        exact .nil
      labels := (append_nil _).symm
      function_eq := rfl
      usual := rfl
      countable := hCalls }
  · rintro (hEnds | hEnds) <;> cases hEnds
  · intro _ hK
    cases hK with
    | here => exact ⟨[], [], rfl, rfl, rfl⟩

/- A statement is laid out before those behind it. -/
theorem blockLaid_cons {g₁ g₂ : Generator} {first others : Code}
    (hFirst : StmtLaid g stmt first g₁)
    (hRest : BlockLaid g₁ rest others g₂) :
    BlockLaid g (stmt :: rest) (first ++ others) g₂ := by
  rcases hFirst with ⟨hMade, layout, hLaid, hEnds, hInner⟩
  rcases hRest with ⟨hOthers, layout', hLaid', hEmpty, hEnds', hPlaces⟩
  have hFunction := hLaid.function_eq
  have hBase := Context.base_congr hFunction
  have hAll := hLaid.append hLaid'
  have hEnters : layout'.chart.entry (some g.context.base) = some g.context.base :=
    hBase ▸ hLaid'.seated.enters
  refine ⟨?_, layout ++ layout', ?_, nofun, ?_, ?_⟩
  · rw [blockCode, hMade]
    simp only [bind, Except.bind, hOthers]
    rfl
  · rw [definitions]
    exact hAll
  · intro hCloses
    cases rest with
    | nil =>
      rw [hEmpty rfl, append_nil]
      exact hEnds hCloses
    | cons =>
      exact hLaid.seated.append_ends ((hEnds' (closes_cons_cons hCloses)).congr hFunction.symm)
  · intro k hK
    cases hK with
    | here => exact ⟨[], layout ++ layout', rfl, rfl, hAll.seated.enters⟩
    | behind hFirst hRest =>
      cases hMade.symm.trans hFirst
      have hPlace := (hPlaces _ hRest).between layout (seated_nil g₁.context).enters
      rw [append_nil, hLaid.code_eq, hBase] at hPlace
      exact hPlace
    | within hWithin =>
      have hPlace := (hInner k hWithin).between [] hEnters
      rwa [nil_append, Layout.code_nil, length_nil, Nat.zero_add] at hPlace

------------------------------------------------------------
-- Statements
------------------------------------------------------------

theorem Plain.definitions_eq (h : Plain g stmt code g') :
    stmtDefinitions stmt = [] := by
  cases h <;> rw [stmtDefinitions] <;> nofun

/- Functions can be called where they are defined before. -/
theorem Steady.countable
    (h : Steady g g')
    (hCalls : g.context.Countable) :
    g'.context.Countable := by
  unfold Context.Countable
  rw [h.alike.functions]
  exact hCalls

/- A statement without a block is straight code. -/
theorem Plain.laid
    (hCalls : g.context.Countable)
    (h : Plain g stmt code g') :
    StmtLaid g stmt code g' := by
  have hSteady := h.steady.1
  rcases h.seated hCalls with ⟨hSeated, hEnds⟩
  refine ⟨h.stmtCode_eq, plot g.context.base code, ?_, hEnds, ?_⟩
  · exact {
      code_eq := plot_code _ _
      seated := hSeated
      solid := fun _ => plot_islands _ _
      functions := by
        rw [h.definitions_eq, plot_islands]
        exact .nil
      labels := by
        rw [plot_islands, map_nil, append_nil, hSteady.labels]
      function_eq := hSteady.alike.function
      usual := hSteady.usual
      countable := hSteady.countable hCalls }
  · intro _ hK
    cases hK <;> cases h

/- The islands of the code around a block. -/
theorem islands_around
    (base : Int)
    (condition : Code)
    (body : Layout)
    (back exit : String) :
    Layout.islands (plot base condition ++ body ++ closing base back exit) =
      body.islands := by
  rw [Layout.islands_append, Layout.islands_append, plot_islands]
  exact append_nil _

theorem code_around
    (base : Int)
    (condition : Code)
    (body : Layout)
    (back exit : String) :
    Layout.code (plot base condition ++ body ++ closing base back exit) =
      condition ++ body.code ++ [.jump .br back, mark exit] := by
  rw [Layout.code_append, Layout.code_append, plot_code]
  rfl

/- A place of the block is one of the code around it. -/
theorem Layout.Rests.around {body : Layout}
    (h : body.Rests base k)
    (condition : Code)
    (back exit : String) :
    Layout.Rests (plot base condition ++ body ++ closing base back exit) base
      (condition.length + k) := by
  have hPlace := h.between (plot base condition) (closing_entry base back exit _)
  rwa [plot_code] at hPlace

section Labels

variable {g₁ g₂ : Generator} {line : Int} {test : Expr} {body : List Stmt}
  {start exit target : String} {condition : Code}

/- The boundaries in either block of a conditional. -/
theorem Forked.boundary
    (h : Forked g start exit other g₁)
    (hElse : orElse.isEmpty = false)
    (hTest : g₁.context.conditionCode start other test = .ok condition)
    (hBody : blockCode g₁ body = .ok (code, g₂))
    (hK : InnerBoundary g (.cond line test body orElse) k) :
    (∃ i, Boundary g₁ body i ∧ k = condition.length + i) ∨
      ∃ i, Boundary g₂ orElse i ∧ k = condition.length + code.length + 2 + i := by
  rcases h with ⟨hStart, hExit, hOther⟩
  cases hK with
  | cond => cases hElse
  | condBody _ hStart' hExit' hOther' hTest' hInner =>
    cases hStart.symm.trans hStart'
    cases hExit.symm.trans hExit'
    cases hOther.symm.trans hOther'
    cases hTest.symm.trans hTest'
    exact .inl ⟨_, hInner, rfl⟩
  | condElse _ hStart' hExit' hOther' hTest' hBody' hInner =>
    cases hStart.symm.trans hStart'
    cases hExit.symm.trans hExit'
    cases hOther.symm.trans hOther'
    cases hTest.symm.trans hTest'
    cases hBody.symm.trans hBody'
    exact .inr ⟨_, hInner, rfl⟩

variable (h : Guarded g line test body stmt start exit target g₁)
include h

theorem Guarded.definitions_eq :
    stmtDefinitions stmt = definitions body := by
  cases h with
  | loop => rw [stmtDefinitions]
  | cond => rw [stmtDefinitions, definitions, append_nil]

variable (hTest : g₁.context.conditionCode start exit test = .ok condition)
include hTest

/- A place in a statement is behind its test, in a block of it. -/
theorem Guarded.boundary (hK : InnerBoundary g stmt k) :
    ∃ i, Boundary g₁ body i ∧ k = condition.length + i := by
  cases h with
  | loop hStart hExit =>
    cases hK with
    | loop hStart' hExit' hTest' hInner =>
      cases hStart.symm.trans hStart'
      cases hExit.symm.trans hExit'
      cases hTest.symm.trans hTest'
      exact ⟨_, hInner, rfl⟩
  | cond hStart hExit =>
    cases hK with
    | cond hStart' hExit' hTest' hInner =>
      cases hStart.symm.trans hStart'
      cases hExit.symm.trans hExit'
      cases hTest.symm.trans hTest'
      exact ⟨_, hInner, rfl⟩
    | condBody hElse | condElse hElse => cases hElse

/- A block behind a condition is laid out between marks. -/
theorem BlockLaid.guarded (hBody : BlockLaid g₁ body code g₂) :
    StmtLaid g stmt (condition ++ code ++ [.jump .br target, mark exit]) g₂ := by
  rcases hBody with ⟨hMade, layout, hLaid, _, _, hPlaces⟩
  have hSteady := h.takes.steady
  have hFunction := hSteady.alike.function
  have hSeated : Seated g₁.context (plot g₁.context.base condition ++ layout
      ++ closing g₁.context.base target exit) := seated_guarded hTest hLaid.seated h.target_mem
  have hCode := code_around g₁.context.base condition layout target exit
  rw [hLaid.code_eq] at hCode
  have hHere := (hLaid.of_steady hSteady).reseat (hSeated.congr hFunction.symm) hCode
    (islands_around ..)
  refine ⟨h.stmtCode_eq hTest hMade, _, h.definitions_eq ▸ hHere, ?_, ?_⟩
  · rintro (hEnds | hEnds) <;> cases h <;> cases hEnds
  · intro _ hK
    rcases h.boundary hTest hK with ⟨_, hInner, rfl⟩
    exact Context.base_congr hFunction ▸ (hPlaces _ hInner).around condition target exit

end Labels

/- Two blocks behind a condition are laid out in turn. -/
theorem BlockLaid.condElse {g₃ g₄ g₅ : Generator} {line : Int} {test : Expr}
    {body : List Stmt} {start exit : String} {condition elseCode : Code}
    (hElse : orElse.isEmpty = false)
    (hLabels : Forked g start exit other g₃)
    (hTest : g₃.context.conditionCode start other test = .ok condition)
    (hBody : BlockLaid g₃ body code g₄)
    (hOrElse : BlockLaid g₄ orElse elseCode g₅) :
    StmtLaid g (.cond line test body orElse)
      (condition ++ code ++ [.jump .br exit, mark other] ++ elseCode ++ [mark exit]) g₅ := by
  rcases hBody with ⟨hMade, layout, hLaid, _, _, hPlaces⟩
  rcases hOrElse with ⟨hMade', layout', hLaid', _, _, hPlaces'⟩
  have hSteady := hLabels.takes.steady
  have hFunction := hSteady.alike.function
  have hBase := Context.base_congr hFunction
  have hSecond := hLaid'.seated.congr hLaid.function_eq.symm
  have hSeated : Seated g₃.context (plot g₃.context.base condition ++ layout
        ++ closing g₃.context.base exit other ++ layout' ++ [.own g₃.context.base (mark exit)]) :=
    seated_branches hTest hLaid.seated hSecond
  refine ⟨hLabels.stmtCode_eq hElse hTest hMade hMade', _, ((hLaid.append hLaid').of_steady
    hSteady).reseat (hSeated.congr hFunction.symm) ?_ ?_, ?_, ?_⟩
  · rw [Layout.code_append, Layout.code_append, code_around, hLaid.code_eq, hLaid'.code_eq]
    rfl
  · rw [Layout.islands_append, Layout.islands_append, islands_around, Layout.islands_append]
    exact append_nil _
  · rintro (hEnds | hEnds) <;> cases hEnds
  · have hAfter : ∀ rest : Layout, Chart.entry (some g₃.context.base)
            (Layout.chart (closing g₃.context.base exit other ++ rest)) = some g₃.context.base :=
      fun _ => rfl
    have hBase₄ : g₄.context.base = g₃.context.base := Context.base_congr hLaid.function_eq
    have hEnd : Chart.entry (some g₄.context.base)
          (Layout.chart [.own g₃.context.base (mark exit)]) = some g₄.context.base :=
      congrArg some hBase₄.symm
    intro _ hK
    rcases hLabels.boundary hElse hTest hMade hK with ⟨_, hInner, rfl⟩ | ⟨_, hInner, rfl⟩
    · have hPlace := (hPlaces _ hInner).between (plot g₃.context.base condition)
        (hAfter (layout' ++ [.own g₃.context.base (mark exit)]))
      rw [plot_code] at hPlace
      simp only [append_assoc] at hPlace ⊢
      exact hBase ▸ hPlace
    · have hPlace := (hPlaces' _ hInner).between (plot g₃.context.base condition ++ layout
          ++ closing g₃.context.base exit other) hEnd
      rw [code_around, hLaid.code_eq, length_append, length_append, hBase₄] at hPlace
      exact hBase ▸ hPlace

theorem Generator.context_functions (g : Generator) :
    g.context.functions = g.functions := by
  unfold Generator.context
  cases g.inside with
  | none | some => rfl

theorem countable_leave
    (hCalls : g.context.Countable)
    (entry : Generator.Entry) :
    (g.leave entry).context.Countable := by
  intro sig hSig
  refine hCalls sig ?_
  rw [Generator.context_functions] at hSig ⊢
  exact hSig

section

variable {name : String} {params : List String} {body : List Stmt}
  {entry : Generator.Entry} {parts : EnterParts g name params body entry g'}
  (facts : EnterFacts parts)
include facts

/- A function gets a label behind those of the others. -/
theorem EnterFacts.labels_eq (hReady : g.Ready) :
    g'.table.labels = g.table.labels ++ [⟨name, entry.label, .label, .global⟩] := by
  have hNew : ∀ b ∈ g.table.labels, b.source ≠ name := by
    intro b hB
    rcases hReady.defined b hB with ⟨sig, hSig, hName⟩
    exact hName ▸ parts.new sig hSig
  rw [congrArg Generator.table parts.after, facts.landed_labels,
    facts.bound_eq, (SymbolTable.bind_labels rfl).1]
  exact Bindings.set_of_new hNew

/- Its arguments can be counted, like those of the others. -/
theorem EnterFacts.calls (hCalls : g.context.Countable) :
    g'.context.Countable := by
  intro sig hSig
  rw [Generator.context_functions, congrArg Generator.functions parts.after] at hSig
  rcases mem_append.mp hSig with hOld | hNew
  · exact hCalls sig (g.context_functions ▸ hOld)
  · rw [mem_singleton.mp hNew]
    exact facts.countable

end

/- A function is an island in the code around it. -/
theorem BlockLaid.define {g₁ g₂ : Generator} {line : Int} {name : String}
    {params : List String} {body : List Stmt} {entry : Generator.Entry}
    {parts : EnterParts g name params body entry g₁}
    (hReady : g.Ready)
    (hEnter : g.enter name params body = .ok (entry, g₁))
    (facts : EnterFacts parts)
    (hGrows : Grows g₁ code g₂)
    (hBody : BlockLaid g₁ body code g₂) :
    StmtLaid g (.define line name params body) (entry.wrap body code) (g₂.leave entry) := by
  rcases hBody with ⟨hMade, _, hLaid, _, hEnds, _⟩
  have hInside : g₁.inside.isSome = true := by
    rw [congrArg Generator.inside parts.after]
    rfl
  have hFunction : g₁.context.function = some entry.sig := by
    unfold Generator.context
    rw [congrArg Generator.inside parts.after]
  have hOutside : g.context.function = none := by
    unfold Generator.context
    rw [parts.outside]
  rcases exists_island hFunction hLaid.seated (hLaid.solid hInside)
    hEnds with ⟨f, hSig, hLabel, hCode⟩
  have hSteady := (hGrows.inside hInside).1
  have hName := facts.signature.name_eq
  refine ⟨?_, [.island f], ?_, ?_, ?_⟩
  · rw [stmtCode, Result.located_eq_ok]
    simp only [bind, Except.bind, hEnter, hMade]
    rfl
  · refine {
      code_eq := by rw [hCode, hLaid.code_eq]
      seated := seated_island hOutside f
      solid := ?_
      functions := ?_
      labels := ?_
      function_eq := ?_
      usual := ?_
      countable := ?_ }
    · intro hSome
      rw [parts.outside] at hSome
      cases hSome
    · rw [stmtDefinitions]
      refine .cons ⟨?_, ?_⟩ .nil
      · rw [hSig]
        exact parts.analyzed
      · rw [hSig]
        exact hName
    · change (g₂.table.merge entry.table).labels = _
      rw [(SymbolTable.merge_bindings g₂.table entry.table).2,
        hSteady.labels, facts.labels_eq hReady, ← hName, ← hSig, ← hLabel]
      rfl
    · exact hOutside.symm
    · exact hSteady.usual.trans (by rw [parts.after])
    · exact countable_leave hLaid.countable entry
  · rintro (hEnds | hEnds) <;> cases hEnds
  · intro _ hK
    cases hK

/- All statements are laid out, one behind the other. -/
theorem Emits.laid
    (h : Emits g stmts code g')
    (hReady : g.Ready)
    (hNamed : Script.WellNamed stmts)
    (hCalls : g.context.Countable) :
    BlockLaid g stmts code g' := by
  induction h with
  | nil => exact blockLaid_nil hCalls
  | plain hFirst _ ih =>
    have hSteady := hFirst.steady.1
    exact blockLaid_cons (hFirst.laid hCalls)
      (ih (hReady.steady hSteady) hNamed.2 (hSteady.countable hCalls))
  | guarded hLabels hTest hBody _ ihBody ihRest =>
    have hSteady := hLabels.takes.steady
    have hInner := hLabels.named hNamed.1
    have hGrows := hBody.grows (hReady.steady hSteady) hInner
    have hBlock := ihBody (hReady.steady hSteady) hInner (hSteady.countable hCalls)
    exact blockLaid_cons (hBlock.guarded hLabels hTest)
      (ihRest hGrows.ready hNamed.2 hBlock.countable)
  | condElse hElse hLabels hTest hBody hOrElse _ ihBody ihElse ihRest =>
    have hSteady := hLabels.takes.steady
    have hGrows := hBody.grows (hReady.steady hSteady) hNamed.1.2.1
    have hGrows' := hOrElse.grows hGrows.ready hNamed.1.2.2
    have hBlock := ihBody (hReady.steady hSteady) hNamed.1.2.1 (hSteady.countable hCalls)
    have hOthers := ihElse hGrows.ready hNamed.1.2.2 hBlock.countable
    exact blockLaid_cons (hBlock.condElse hElse hLabels hTest hOthers)
      (ihRest hGrows'.ready hNamed.2 hOthers.countable)
  | define hEnter hBody _ ihBody ihRest =>
    rcases enter_parts hEnter with ⟨parts⟩
    have facts := enter_facts hReady hNamed.1 parts
    have hInner := hNamed.1.2.2.2
    have hEntered := enter_ready hReady facts
    have hGrows := hBody.grows hEntered hInner
    have hBlock := ihBody hEntered hInner (facts.calls hCalls)
    exact blockLaid_cons (hBlock.define hReady hEnter facts hGrows)
      (ihRest (grows_define hReady facts hGrows).ready hNamed.2
        (countable_leave hBlock.countable _))

end Compile

end Pep9
