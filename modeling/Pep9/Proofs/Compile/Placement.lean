import Pep9.Proofs.Compile.Scopes

/-
  The places of uses in a whole program. Every use was made
  in some scope, and what a function sees is used between
  the label of the function and its landing label.

  Key theorems: `sight_of_enter`, `Emits.composed`,
  `composes_placed`.
-/

namespace Pep9

open List
open Listing (Instruction Frame)
open Script (Expr Stmt IsIdentifier)

namespace Compile

variable {ctx : Context} {name : String} {g g' : Generator} {code : Code}
  {params : List String} {body : List Stmt} {entry : Generator.Entry}

/- Contexts that differ at most in marks and taken names. -/
structure Alike (ctx ctx' : Context) : Prop where
  data : ctx'.table.data = ctx.table.data
  labels : ctx'.table.labels = ctx.table.labels
  function : ctx'.function = ctx.function
  functions : ctx'.functions = ctx.functions
  arrays : ctx'.arrays = ctx.arrays

theorem Steady.alike (h : Steady g g') : Alike g.context g'.context := by
  have hInside := h.inside
  unfold Generator.context
  cases hBefore : g.inside with
  | none =>
    cases hAfter : g'.inside with
    | none => exact ⟨h.data, h.labels, rfl, h.functions, h.arrays⟩
    | some =>
      rw [hBefore, hAfter] at hInside
      cases hInside
  | some =>
    cases hAfter : g'.inside with
    | none =>
      rw [hBefore, hAfter] at hInside
      cases hInside
    | some =>
      rw [hBefore, hAfter] at hInside
      cases hInside with
      | inside hSig hData hLabels =>
        exact ⟨hData, hLabels, congrArg some hSig, h.functions, h.arrays⟩

/-
  What is in sight when an instruction is made, given the
  bindings of the globals, the targets of the global arrays,
  the frames and the functions of the whole program. A
  function sees constants and arrays among the globals, and
  its own places.
-/
structure Sight (globals : Bindings) (arrays : List String)
    (frames : List Frame) (functions : Bindings) (ctx : Context) : Prop where
  data : ∀ b ∈ ctx.table.data, (b ∈ globals ∧ (ctx.function.isSome = true →
          isConstantName b.source = true ∨ isArrayName b.source = true)) ∨ ∃ sig,
        ctx.function = some sig ∧ b.scope = .local sig.name ∧ ∃ f ∈ frames, f.function = sig.name ∧
            ∃ d ∈ f.decls, d.name = b.target
  calls : ∀ b ∈ ctx.table.labels, ∃ outer ∈ functions,
        outer.source = b.source ∧ outer.target = b.target
  arrays : ∀ b ∈ globals, b.target ∈ ctx.arrays ↔ b.target ∈ arrays

/-
  The symbols of a whole program: the bindings of the globals,
  the targets of the global arrays, the frames, the functions,
  and their signatures with the usual size of arrays.
-/
structure Outlook where
  globals : Bindings
  arrays : List String
  frames : List Frame
  functions : Bindings
  sigs : List Signature
  usual : Int64

abbrev Outlook.Sees (w : Outlook) (ctx : Context) : Prop :=
  Sight w.globals w.arrays w.frames w.functions ctx

variable {w : Outlook}

theorem Sight.alike {ctx' : Context}
    (hSight : w.Sees ctx)
    (h : Alike ctx ctx') :
    w.Sees ctx' where
  data := by
    rw [h.data, h.function]
    exact hSight.data
  calls := by
    rw [h.labels]
    exact hSight.calls
  arrays := by
    rw [h.arrays]
    exact hSight.arrays

/- What holds at every moment of the compilation of a script. -/
structure Known (w : Outlook) (g : Generator) : Prop where
  ready : g.Ready
  data : g.table.data = w.globals
  used : ∀ b ∈ w.globals, g.table.inUse b.target = true
  arrays : ∀ b ∈ w.globals, b.target ∈ g.arrays ↔ b.target ∈ w.arrays

theorem Known.grows
    (hKnown : Known w g)
    (h : Grows g code g') :
    Known w g' where
  ready := h.ready
  data := h.data.trans hKnown.data
  used := by
    intro b hB
    rcases h.names with ⟨_, _, hNames⟩
    exact hNames.kept _ (hKnown.used b hB)
  arrays := by
    intro b hB
    rcases h.arrays with ⟨_, hMore, hFresh⟩
    rw [hMore, mem_append, ← hKnown.arrays b hB]
    refine or_iff_left fun hMem => ?_
    have hUsed := hKnown.used b hB
    rw [hFresh _ hMem] at hUsed
    cases hUsed

/- A state of whose frames and functions a program has all. -/
structure Final (w : Outlook) (g : Generator) : Prop where
  frames : ∀ f ∈ g.frames, f ∈ w.frames
  functions : ∀ b ∈ g.table.labels, b ∈ w.functions

theorem Final.before
    (hFinal : Final w g')
    (h : Grows g code g') :
    Final w g where
  frames := by
    intro f hF
    rcases h.names with ⟨_, hMore, _⟩
    refine hFinal.frames f ?_
    rw [hMore]
    exact mem_append_left _ hF
  functions := fun b hB => hFinal.functions b (h.kept b hB)

theorem Final.leave (hFinal : Final w (g.leave entry)) : Final w g where
  frames := hFinal.frames
  functions := by
    intro b hB
    refine hFinal.functions b ?_
    change b ∈ (g.table.merge entry.table).labels
    rw [(SymbolTable.merge_bindings g.table entry.table).2]
    exact hB

/- At the top level all globals are in sight. -/
theorem sight_of_outside
    (hKnown : Known w g)
    (hOutside : g.inside = none)
    (hFinal : Final w g) :
    w.Sees g.context := by
  unfold Generator.context
  rw [hOutside]
  refine ⟨?_, ?_, hKnown.arrays⟩
  · intro _ hB
    refine .inl ⟨hKnown.data ▸ hB, ?_⟩
    intro hInside
    cases hInside
  · intro b hB
    exact ⟨b, hFinal.functions b hB, rfl, rfl⟩

/- A function is entered with its symbols in sight. -/
theorem sight_of_enter {parts : EnterParts g name params body entry g'}
    (hKnown : Known w g)
    (facts : EnterFacts parts)
    (hFinal : Final w g') :
    w.Sees g'.context := by
  have hInside := congrArg Generator.inside parts.after
  have hFrame : ⟨name, (allocateFrame parts.bound.child entry.sig).decls⟩ ∈ w.frames := by
    refine hFinal.frames _ ?_
    rw [congrArg Generator.frames parts.after]
    exact mem_append_right _ mem_cons_self
  have hBound : parts.bound.data = w.globals := by
    rw [facts.bound_eq, (SymbolTable.bind_labels rfl).2, hKnown.data]
  have hLabels : g'.table.labels = parts.bound.labels := by
    rw [congrArg Generator.table parts.after, facts.landed_labels]
  unfold Generator.context
  rw [hInside]
  refine ⟨?_, ?_, ?_⟩
  · intro b hB
    change b ∈ entry.table.data at hB
    rw [parts.table_eq] at hB
    rcases facts.frame.data b hB with hOuter | ⟨hScope, d, hD, hName⟩
    · rcases SymbolTable.child_data hOuter with ⟨hGlobal, hKind⟩
      exact .inl ⟨hBound ▸ hGlobal, fun _ => hKind⟩
    · refine .inr ⟨entry.sig, rfl, ?_, _, hFrame, ?_, d, hD, hName⟩
      · rw [facts.signature.name_eq]
        exact hScope
      · exact facts.signature.name_eq.symm
  · intro b hB
    change b ∈ entry.table.labels at hB
    rw [parts.table_eq, facts.frame.labels] at hB
    rcases SymbolTable.child_labels hB with ⟨outer, hOuter, hSame⟩
    exact ⟨outer, hFinal.functions outer (hLabels ▸ hOuter), hSame⟩
  · intro b hB
    rw [← hKnown.arrays b hB, congrArg Generator.arrays parts.after, mem_append]
    refine or_iff_left fun hMem => ?_
    have hUsed := hKnown.used b hB
    rw [arrayTargets_fresh facts _ hMem] at hUsed
    cases hUsed

/-
  A place between the label of a function and the landing
  label behind it, to which the branch before the function
  goes.
-/
def Around (functions : Bindings) (name : String) (before behind : Code) : Prop :=
  ∃ b ∈ functions, b.source = name ∧ ∃ landing outer inner rest further, before =
        outer ++ [.jump .br landing, mark b.target] ++ inner ∧
      behind = rest ++ mark landing :: further

theorem Around.extend {functions : Bindings} {before behind : Code}
    (h : Around functions name before behind)
    (outer further : Code) :
    Around functions name (outer ++ before) (behind ++ further) := by
  rcases h with ⟨b, hB, hName, landing, start, inner, rest, last, rfl, rfl⟩
  refine ⟨b, hB, hName, landing, outer ++ start, inner, rest, last ++ further, ?_, ?_⟩
  · simp only [append_assoc]
  · simp only [append_assoc, cons_append]

/-
  An instruction of a program: a jump, or a use of what is
  in sight. It belongs to the scope `home`, or to a function
  whose code is around it.
-/
inductive Placed (w : Outlook) (home : Option String) : Code → Instruction → Code → Prop where
  | jump {before behind : Code} {label target : String} {m : Isa.Mnemonic}
      (hForm : m.form = .branch) (hCall : m ≠ .call) : Placed w home before
        ⟨label, .known m, .symbol target, .none⟩ behind
  | use {before behind : Code} {i : Instruction} {ctx : Context}
      (hSight : w.Sees ctx) (hPlace :
        ctx.function.map Signature.name = home ∨ ∃ sig, ctx.function = some sig ∧
            Around w.functions sig.name before behind) (hUse : Use ctx before i behind) :
      Placed w home before i behind

theorem placed_stable (home : Option String) : Stable (Placed w home) := by
  intro outer _ _ _ further h
  cases h with
  | jump hForm hCall => exact .jump hForm hCall
  | use hSight hPlace hUse =>
    refine .use hSight ?_ (use_stable _ outer _ _ _ further hUse)
    rcases hPlace with hHome | ⟨sig, hSig, hAround⟩
    · exact .inl hHome
    · exact .inr ⟨sig, hSig, hAround.extend outer further⟩

/- Code that is made in a scope. -/
theorem placed_of_uses
    (hSight : w.Sees ctx)
    (h : Everywhere (Use ctx) code) :
    Everywhere (Placed w (ctx.function.map Signature.name)) code :=
  h.mono fun _ _ _ hUse => .use hSight (.inl rfl) hUse

theorem placed_jump {home : Option String} {m : Isa.Mnemonic} {target : String}
    (hForm : m.form = .branch)
    (hCall : m ≠ .call) :
    Everywhere (Placed w home) [.jump m target] :=
  .singleton (.jump hForm hCall)

theorem placed_mark
    (label : String)
    (hSight : w.Sees ctx) :
    Everywhere (Placed w (ctx.function.map Signature.name)) [mark label] :=
  placed_of_uses hSight (.singleton (.unary rfl))

theorem exitBranch_form (op : Script.Comparison) :
    (exitBranch op).form = .branch ∧ exitBranch op ≠ .call := by
  cases op <;> exact ⟨rfl, by decide⟩

theorem placed_condition {label exit : String} {test : Expr}
    (hSight : w.Sees ctx)
    (h : ctx.conditionCode label exit test = .ok code) :
    Everywhere (Placed w (ctx.function.map Signature.name)) code := by
  rcases conditionCode_uses h with ⟨_, _, rfl, hForm, hCall, hUses⟩
  exact .append (placed_stable _) (placed_of_uses hSight hUses) (placed_jump hForm hCall)

/- A function is placed with the jump around it. -/
theorem placed_wrap
    (hSight : w.Sees ctx)
    (hOutside : ctx.function = none)
    (hFunction : ∃ b ∈ w.functions, b.source = name ∧ b.target = entry.label)
    (hCode : Everywhere (Placed w (some name)) code) :
    Everywhere (Placed w none) (entry.wrap body code) := by
  have hStable : Stable (Placed w none) := placed_stable none
  have hOf : ∀ {c : Code}, Everywhere (Use ctx) c → Everywhere (Placed w none) c := by
    intro _ hC
    have hPlaced := placed_of_uses hSight hC
    rwa [hOutside] at hPlaced
  have hUnary : ∀ {label : String} {m : Isa.Mnemonic}, m.form = .unary →
        Everywhere (Placed w none) [⟨label, .known m, .absent, .none⟩] :=
    fun hForm => hOf (.singleton (.unary hForm))
  have hAdjust : ∀ {m : Isa.Mnemonic} (bytes : Int64), m = .subsp ∨ m = .addsp →
        Everywhere (Placed w none) (adjustStack m bytes) :=
    fun bytes hOp => hOf (emitted_adjustStack bytes hOp).uses
  -- The code before and behind the body.
  have hSplit : entry.wrap body code = ([.jump .br entry.landing, mark entry.label]
            ++ adjustStack .subsp entry.sig.localsSize) ++ code ++ ((if endsWithReturn body then []
              else adjustStack .addsp entry.sig.localsSize ++ [.plain .ret])
            ++ [mark entry.landing]) := by
    simp only [Generator.Entry.wrap, append_assoc]
  rw [hSplit]
  refine .between hStable ?_ ?_ ?_
  · refine .append hStable ?_ (hAdjust _ (.inl rfl))
    exact .append hStable (placed_jump rfl (by decide)) (hUnary rfl)
  · intro before i behind hEq
    have hPlaced := hCode before i behind hEq
    cases hPlaced with
    | jump hForm hCall => exact .jump hForm hCall
    | use hInner hPlace hUse =>
      refine .use hInner (.inr ?_) (use_stable _ _ before i behind _ hUse)
      rcases hPlace with hHome | ⟨sig, hSig, hAround⟩
      · rcases Option.map_eq_some_iff.mp hHome with ⟨sig, hSig, hName⟩
        rcases hFunction with ⟨b, hB, hSource, hTarget⟩
        refine ⟨sig, hSig, b, hB, hSource.trans hName.symm, entry.landing, [],
          adjustStack .subsp entry.sig.localsSize ++ before, behind
            ++ (if endsWithReturn body then []
              else adjustStack .addsp entry.sig.localsSize ++ [.plain .ret]), [], ?_, ?_⟩
        · rw [hTarget, nil_append, append_assoc]
        · rw [append_assoc]
      · exact ⟨sig, hSig, hAround.extend _ _⟩
  · refine .append hStable ?_ (hUnary rfl)
    split
    · exact .nil
    · exact .append hStable (hAdjust _ (.inr rfl)) (hUnary rfl)

------------------------------------------------------------
-- States of a Program
------------------------------------------------------------

/- A block stays in the scope in which it starts. -/
theorem Grows.scope (h : Grows g code g') :
    (g.inside = none ∧ g'.inside = none) ∨ (g.inside.isSome = true ∧ Steady g g') := by
  cases hInside : g.inside with
  | none => exact .inl ⟨rfl, h.outside hInside⟩
  | some => exact .inr ⟨rfl, (h.inside (hInside ▸ rfl)).1⟩

theorem Grows.function_eq (h : Grows g code g') :
    g'.context.function = g.context.function := by
  rcases h.scope with ⟨hBefore, hAfter⟩ | ⟨_, hSteady⟩
  · unfold Generator.context
    rw [hBefore, hAfter]
  · exact hSteady.alike.function

/-
  A state with what is known of the globals; inside a
  function also with what that function sees.
-/
structure InScope (w : Outlook) (g : Generator) : Prop where
  known : Known w g
  sight : g.inside.isSome = true → w.Sees g.context

theorem InScope.grows
    (hScope : InScope w g)
    (h : Grows g code g') :
    InScope w g' where
  known := hScope.known.grows h
  sight := by
    intro hInside
    rcases h.scope with ⟨_, hAfter⟩ | ⟨hSome, hSteady⟩
    · rw [hAfter] at hInside
      cases hInside
    · exact (hScope.sight hSome).alike hSteady.alike

theorem InScope.sees
    (hScope : InScope w g)
    (hFinal : Final w g) :
    w.Sees g.context := by
  cases hInside : g.inside with
  | none => exact sight_of_outside hScope.known hInside hFinal
  | some => exact hScope.sight (hInside ▸ rfl)

theorem InScope.enter {parts : EnterParts g name params body entry g'}
    (hScope : InScope w g)
    (facts : EnterFacts parts)
    (hFinal : Final w g') :
    InScope w g' := by
  have hTable := congrArg Generator.table parts.after
  have hSight := sight_of_enter hScope.known facts hFinal
  have hArrays : g'.context.arrays = g'.arrays := by
    unfold Generator.context
    rw [congrArg Generator.inside parts.after]
  refine ⟨⟨enter_ready hScope.known.ready facts, ?_, ?_, ?_⟩, fun _ => hSight⟩
  · rw [hTable, facts.landed_data, hScope.known.data]
  · intro b hB
    rw [hTable]
    exact facts.landing.kept _ (facts.label.kept _ (hScope.known.used b hB))
  · rw [← hArrays]
    exact hSight.arrays

/- A state on the way to a program with all that it has. -/
structure Moment (w : Outlook) (g : Generator) : Prop where
  scope : InScope w g
  final : Final w g
  listed : ∀ sig ∈ g.functions, sig ∈ w.sigs
  usual : g.usual = w.usual

/-
  A property of blocks and their code that is composed from
  those of the statements, from one state to the next. It is
  asked for at moments of a compilation.
-/
structure Composes (w : Outlook) (R : Generator → List Stmt → Code → Prop) : Prop where
  nil : ∀ {g : Generator}, R g [] []
  cons : ∀ {g g₁ : Generator} {stmt : Stmt} {rest : List Stmt} {first inner others : Code},
      stmtCode g stmt = .ok (first, g₁) → Grows g inner g₁ →
        R g [stmt] first → R g₁ rest others → R g (stmt :: rest) (first ++ others)
  taken : ∀ {g g₁ : Generator} {names : List String} {inner code : Code} {stmts : List Stmt},
      Takes g names g₁ → Grows g inner g₁ → R g₁ stmts code → R g stmts code
  plain : ∀ {g g₁ : Generator} {stmt : Stmt} {code : Code},
      Moment w g → Plain g stmt code g₁ → R g [stmt] code
  guarded : ∀ {g g₀ : Generator} {line : Int} {test : Expr} {body : List Stmt}
      {stmt : Stmt} {start exit target : String} {condition code : Code},
      Moment w g → Guarded g₀ line test body stmt start exit target g →
        g.context.conditionCode start exit test = .ok condition → R g body code →
          R g [stmt] (condition ++ code ++ [.jump .br target, mark exit])
  condElse : ∀ {g g₁ : Generator} {line : Int} {test : Expr} {body orElse : List Stmt}
      {start exit other : String} {condition code inner elseCode : Code},
      Moment w g →
        g.context.conditionCode start other test = .ok condition →
        blockCode g body = .ok (code, g₁) → Grows g inner g₁ →
        R g body code → R g₁ orElse elseCode → R g [.cond line test body orElse]
            (condition ++ code ++ [.jump .br exit, mark other] ++ elseCode ++ [mark exit])
  define : ∀ {g g₁ g₂ : Generator} {line : Int} {name : String}
      {params : List String} {body : List Stmt} {entry : Generator.Entry}
      {code : Code} {parts : EnterParts g name params body entry g₁},
      Moment w g →
        g.enter name params body = .ok (entry, g₁) → EnterFacts parts →
        (∀ p ∈ params, IsIdentifier p) → Moment w g₁ →
        Emits g₁ body code g₂ → R g₁ body code →
          R g [.define line name params body] (entry.wrap body code)

theorem Moment.sight (h : Moment w g) : w.Sees g.context := h.scope.sees h.final

/- What is before a moment is a moment as well. -/
theorem InScope.moment
    (hScope : InScope w g)
    (h : Grows g code g')
    (hSigned : Signed g g')
    (hEnd : Moment w g') :
    Moment w g :=
  ⟨hScope, hEnd.final.before h, fun sig hSig => hEnd.listed sig (hSigned.kept sig hSig),
    hSigned.usual.symm.trans hEnd.usual⟩

section Composed

variable {R : Generator → List Stmt → Code → Prop} {g₁ : Generator}
  {stmts rest : List Stmt} {stmt : Stmt} {first inner others : Code}

/- A statement, and those behind it. -/
theorem Composes.step
    (hR : Composes w R)
    (hScope : InScope w g)
    (hMade : stmtCode g stmt = .ok (first, g₁))
    (hInner : Grows g inner g₁)
    (hSigned : Signed g g₁)
    (hRest : Emits g₁ rest others g')
    (hNamed : Script.WellNamed rest)
    (hEnd : Moment w g')
    (hFirst : Moment w g → Moment w g₁ → R g [stmt] first)
    (hOthers : InScope w g₁ → R g₁ rest others) :
    R g (stmt :: rest) (first ++ others) := by
  have hScope₁ := hScope.grows hInner
  have hBehind := hScope₁.moment (hRest.grows hInner.ready hNamed) (hRest.signed hNamed) hEnd
  exact hR.cons hMade hInner (hFirst (hScope.moment hInner hSigned hBehind) hBehind)
    (hOthers hScope₁)

/- The code of a block has every property that is composed. -/
theorem Emits.composed
    (h : Emits g stmts code g')
    (hR : Composes w R)
    (hNamed : Script.WellNamed stmts)
    (hScope : InScope w g)
    (hEnd : Moment w g') :
    R g stmts code := by
  have hReady := hScope.known.ready
  induction h with
  | nil => exact hR.nil
  | plain hFirst hRest ih =>
    exact hR.step hScope hFirst.stmtCode_eq (hFirst.grows hReady) hFirst.steady.1.signed hRest
      hNamed.2 hEnd (fun hHere _ => hR.plain hHere hFirst)
      fun hBehind => ih hNamed.2 hBehind hEnd hBehind.known.ready
  | guarded hLabels hTest hBody hRest ihBody ihRest =>
    rcases hLabels.takes.grows hReady with ⟨_, _, hTaken⟩
    have hInner := hLabels.named hNamed.1
    have hGrows := hBody.grows hTaken.ready hInner
    have hSigned := hBody.signed hInner
    refine hR.step hScope (hLabels.stmtCode_eq hTest hBody.blockCode_eq) (hTaken.append hGrows)
      (hLabels.takes.steady.signed.trans hSigned) hRest hNamed.2 hEnd (fun _ hBehind => ?_)
      fun hBehind => ihRest hNamed.2 hBehind hEnd hBehind.known.ready
    have hHere := (hScope.grows hTaken).moment hGrows hSigned hBehind
    exact hR.taken hLabels.takes hTaken (hR.guarded hHere hLabels hTest
      (ihBody hInner hHere.scope hBehind hTaken.ready))
  | condElse hElse hLabels hTest hBody hOrElse hRest ihBody ihElse ihRest =>
    rcases hLabels.takes.grows hReady with ⟨_, _, hTaken⟩
    have hInner := hBody.grows hTaken.ready hNamed.1.2.1
    have hSigned := hBody.signed hNamed.1.2.1
    have hSecond := hOrElse.grows hInner.ready hNamed.1.2.2
    have hSigned' := hOrElse.signed hNamed.1.2.2
    refine hR.step hScope
      (hLabels.stmtCode_eq hElse hTest hBody.blockCode_eq hOrElse.blockCode_eq)
      (hTaken.append (hInner.append hSecond))
      (hLabels.takes.steady.signed.trans (hSigned.trans hSigned')) hRest hNamed.2 hEnd
      (fun _ hBehind => ?_) fun hBehind => ihRest hNamed.2 hBehind hEnd hBehind.known.ready
    have hMiddle := ((hScope.grows hTaken).grows hInner).moment hSecond hSigned' hBehind
    have hHere := (hScope.grows hTaken).moment hInner hSigned hMiddle
    exact hR.taken hLabels.takes hTaken (hR.condElse hHere hTest hBody.blockCode_eq hInner
      (ihBody hNamed.1.2.1 hHere.scope hMiddle hTaken.ready)
      (ihElse hNamed.1.2.2 hMiddle.scope hBehind hInner.ready))
  | @define _ _ _ _ line _ _ _ _ _ _ _ hEnter hBody hRest ihBody ihRest =>
    rcases enter_parts hEnter with ⟨parts⟩
    have facts := enter_facts hReady hNamed.1 parts
    have hInner := hNamed.1.2.2.2
    have hEntered := enter_ready hReady facts
    have hGrows := hBody.grows hEntered hInner
    have hSigned := hBody.signed hInner
    have hSigned₁ := parts.signed facts.signature.name_eq
    have hMade := stmtCode_define line hEnter hBody.blockCode_eq
    refine hR.step hScope hMade (grows_define hReady facts hGrows)
      ⟨hSigned.usual.trans hSigned₁.usual, fun sig hSig =>
        hSigned.kept sig (hSigned₁.kept sig hSig),
        fun h => hSigned.nodup (hSigned₁.nodup h)⟩ hRest hNamed.2 hEnd
      (fun hHere hBehind => ?_)
      fun hBehind => ihRest hNamed.2 hBehind hEnd hBehind.known.ready
    have hFinal := hBehind.final.leave
    have hIn := hScope.enter facts (hFinal.before hGrows)
    have hOut : Moment w _ := ⟨hIn.grows hGrows, hFinal, hBehind.listed, hBehind.usual⟩
    exact hR.define hHere hEnter facts hNamed.1.2.1 (hIn.moment hGrows hSigned hOut) hBody
      (ihBody hInner hIn hOut hEntered)

end Composed

/- The jump back, or the jump to the end, and a mark. -/
theorem placed_jump_mark
    (target label : String)
    (hSight : w.Sees ctx) :
    Everywhere (Placed w (ctx.function.map Signature.name)) [.jump .br target, mark label] :=
  .cons (placed_stable _) (.jump rfl (by decide)) (placed_mark label hSight)

theorem placed_define {g₁ : Generator}
    {parts : EnterParts g name params body entry g₁}
    (hHere : Moment w g)
    (facts : EnterFacts parts)
    (hInside : Moment w g₁)
    (hCode : Everywhere (Placed w (g₁.context.function.map Signature.name)) code) :
    Everywhere (Placed w (g.context.function.map Signature.name))
      (entry.wrap body code) := by
  have hOutside : g.context.function = none := by
    unfold Generator.context
    rw [parts.outside]
  have hHome : g₁.context.function.map Signature.name = some name := by
    unfold Generator.context
    rw [congrArg Generator.inside parts.after]
    exact congrArg some facts.signature.name_eq
  have hFunction : ⟨name, entry.label, .label, .global⟩ ∈ w.functions := by
    refine hInside.final.functions _ ?_
    rw [congrArg Generator.table parts.after, facts.landed_labels,
      facts.bound_eq, (SymbolTable.bind_labels rfl).1]
    exact (Bindings.find_eq_some (Bindings.find_set_self _ _)).1
  rw [hHome] at hCode
  rw [hOutside]
  exact placed_wrap hHere.sight hOutside ⟨_, hFunction, rfl, rfl⟩ hCode

theorem composes_placed :
    Composes w fun g _ code =>
      Everywhere (Placed w (g.context.function.map Signature.name)) code where
  nil := .nil
  cons := fun _ hGrows hFirst hOthers =>
    .append (placed_stable _) hFirst (hGrows.function_eq ▸ hOthers)
  taken := fun _ hGrows h => hGrows.function_eq ▸ h
  plain := fun hHere h => placed_of_uses hHere.sight h.emitted.uses
  guarded := fun hHere _ hTest hCode =>
    .append (placed_stable _) (.append (placed_stable _) (placed_condition hHere.sight hTest) hCode)
      (placed_jump_mark _ _ hHere.sight)
  condElse := fun hHere hTest _ hGrows hCode hElseCode =>
    .append (placed_stable _) (.append (placed_stable _)
      (.append (placed_stable _) (.append (placed_stable _)
          (placed_condition hHere.sight hTest) hCode) (placed_jump_mark _ _ hHere.sight))
        (hGrows.function_eq ▸ hElseCode)) (placed_mark _ hHere.sight)
  define := fun hHere _ facts _ hInside _ hCode => placed_define hHere facts hInside hCode

end Compile

end Pep9
