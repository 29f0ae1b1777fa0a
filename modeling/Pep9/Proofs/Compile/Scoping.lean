import Pep9.Proofs.Compile.Visibility

/-
  The scopes of a program. Every statement is compiled where
  the variables of its scope are in sight: those of the top
  level, or those of the function in whose body its code
  stands. The same holds of every instruction that indexes and
  of every call; the calls are those of the source, in its
  order. Arrays are addressed as the scope has them: global
  ones by their symbols, local ones in the frame, and
  parameters through the address that was passed.

  Key theorems: `Plain.calls_eq`, `composes_scoped`,
  `scoped_of_parts`, `Homed.resolves`.
-/

namespace Pep9

open List
open Isa (Mnemonic)
open Listing (Instruction Program)
open Script (Expr Stmt)

variable {Q : Context → Prop} {calls : List Call} {exit : String} {made : List Definition}
  {r : Routine} {returned : List (Option Expr)} {test : Expr}
  {behind : Code} {body : List Stmt} {i : Instruction} {line : Int}
  {params : List String}

namespace Compile

variable {stmt : Stmt}

mutual

/-
  The calls of a statement in the order of the text, behind
  assignments to some names. The first assignment to an array
  has no code, so that it has no calls.
-/
def stmtCalls (seen : List String) : Stmt → List Call
  | .assign _ (.name name) _ value =>
    if isArrayName name = true ∧ name ∉ seen then [] else callsIn value
  | .assign _ (.element _ _) _ value => callsIn value
  | .expr _ value => callsIn value
  | .ret _ (some value) => callsIn value
  | .loop _ _ body => callsOf seen body
  | .cond _ _ body orElse => callsOf seen body ++ callsOf (assignedNames body ++ seen) orElse
  | .define _ _ params body => callsOf params body
  | _ => []

/- The calls of a block and of the functions that it defines. -/
def callsOf (seen : List String) : List Stmt → List Call
  | [] => []
  | stmt :: rest => stmtCalls seen stmt ++ callsOf (assignedNames [stmt] ++ seen) rest

end

section Texts

variable {name : String}
  {script before stmts front back : List Stmt} {home : Option Definition}
  {seen : List String} {g g₁ : Generator}

/-
  A block of a scope that is still to be compiled, with the
  statements before it and the names to which they assign.
-/
structure Ahead (script : List Stmt) (home : Option Definition)
    (before : List Stmt) (seen : List String) (stmts : List Stmt) (g : Generator) : Prop where
  sees : Sees script home before g
  text : ∃ behind, opened (scopeBody script home) = before ++ opened stmts ++ behind
  seen_iff : ∀ name, name ∈ seen ↔ (∃ d ∈ home, name ∈ d.params) ∨ name ∈ targetNames before

namespace Ahead

section

variable (h : Ahead script home before seen stmts g)
include h

theorem first {others : List Stmt}
    (hOpened : opened stmts = opened front ++ others) :
    Ahead script home before seen front g where
  sees := h.sees
  text := by
    rcases h.text with ⟨behind, hText⟩
    refine ⟨others ++ behind, ?_⟩
    rw [hText, hOpened]
    simp only [append_assoc]
  seen_iff := h.seen_iff

theorem rest
    (hOpened : opened stmts = opened front ++ opened back)
    (hStays : Stays ((opened front).flatMap assigned) g g₁) :
    Ahead script home (before ++ opened front) (assignedNames front ++ seen) back g₁ where
  sees := h.sees.stays hStays
  text := by
    rcases h.text with ⟨behind, hText⟩
    refine ⟨behind, ?_⟩
    rw [hText, hOpened]
    simp only [append_assoc]
  seen_iff := by
    intro name
    rw [mem_append, h.seen_iff, targetNames_append, mem_append, assignedNames,
      or_comm, or_assoc]

theorem taken (hStays : Stays [] g g₁) :
    Ahead script home before seen stmts g₁ :=
  ⟨h.sees.quiet hStays, h.text, h.seen_iff⟩

end

theorem enter {entry : Generator.Entry}
    (h : Ahead script home before seen [.define line name params body] g)
    (parts : EnterParts g name params body entry g₁) :
    Ahead script (some ⟨name, params, body⟩) [] params body g₁ := by
  have hTop := h.sees.top
  unfold Generator.context at hTop
  rw [parts.outside] at hTop
  cases home with
  | some => cases hTop
  | none =>
    refine ⟨h.sees.enter (d := ⟨name, params, body⟩) parts, ⟨[], ?_⟩, ?_⟩
    · rw [nil_append, append_nil]
      rfl
    · simp [targetNames]

/- Which assignments are left out is known from the text. -/
theorem isSpecial_iff {value : Expr} {ref : Reference}
    (h : Ahead script home before seen [.assign line (.name name) [] value] g)
    (hRef : g.context.reference name = .ok ref) :
    g.context.table.isSpecial ref.target = true ↔ name ∉ seen ∧
      (isArrayName name = true ∨ home = none ∧ ∃ n, value = .literal n) := by
  rcases reference_eq_ok hRef with ⟨b, hFound, rfl⟩
  rcases h.text with ⟨behind, hText⟩
  rw [opened_of_closed rfl] at hText
  have hMark : g.context.table.isSpecial b.target = true ↔ b.target ∈ g.context.table.special := by
    simp [SymbolTable.isSpecial]
  change g.context.table.isSpecial b.target = true ↔ _
  rw [hMark, h.sees.marked name b hFound, h.seen_iff]
  by_cases hOld : name ∈ targetNames before
  · simp [hOld]
  cases home with
  | none =>
    have hFirst : firstValue? ((opened script).flatMap assigned) name = some value := by
      rw [show opened script = _ from hText, flatMap_append, flatMap_append]
      exact firstValue?_append (firstValue?_new (not_mem_targetNames.mp hOld) value) _
    unfold Elided
    dsimp only
    rw [hFirst]
    simp [hOld, or_comm]
  | some d =>
    have hName : name ∈ assignedNames d.body := by
      unfold assignedNames
      rw [show opened d.body = _ from hText]
      simp [targetNames, assigned]
    unfold Elided NotLocal
    constructor
    · rintro ⟨⟨hArray, _, hOwn⟩, _⟩
      simp_all
    · rintro ⟨hNew, hArray | hNone⟩
      · have hConstant := not_constant_of_array hArray
        simp_all
      · cases hNone.1

end Ahead

/- The calls of a statement that is compiled are those of the text. -/
theorem Plain.calls_eq {code : Code}
    (h : Plain g stmt code g₁)
    (hAhead : Ahead script home before seen [stmt] g) :
    g.calls stmt = stmtCalls seen stmt := by
  have hAssign : ∀ {line name value ref}, stmt = .assign line (.name name) [] value →
      g.context.reference name = .ok ref → g.calls stmt = stmtCalls seen stmt := by
    rintro line name value ref rfl hRef
    have hSpecial := hAhead.isSpecial_iff hRef
    rw [Generator.calls_assign hRef, stmtCalls]
    by_cases hSkip : isArrayName name = true ∧ name ∉ seen
    · rw [if_pos hSkip, if_pos (hSpecial.mpr ⟨hSkip.2, .inl hSkip.1⟩)]
    · rw [if_neg hSkip]
      split
      · next hMark =>
        rcases hSpecial.mp hMark with ⟨hNew, hArray | ⟨_, _, rfl⟩⟩
        · exact absurd ⟨hArray, hNew⟩ hSkip
        · rfl
      · rfl
  cases h with
  | elided hRef | stored hRef => exact hAssign rfl hRef
  | @ret _ value =>
    cases value with
    | none | some => rfl
  | pass | element | expr => rfl

end Texts

/- An instruction that indexes has the reference of some name. -/
def Subscripted (ctx : Context) (i : Instruction) : Prop :=
  i.mode.isIndexed = true → ∃ id ref, ctx.reference id = .ok ref ∧ i.operand = .symbol ref.target ∧
        i.mode = ref.mode

section Contexts

variable {ctx : Context} {code : Code}

theorem Use.subscripted {before : Code}
    (h : Use ctx before i behind) :
    Subscripted ctx i := by
  intro hIndexed
  cases h with
  | read _ hRef | write _ hRef _ => exact ⟨_, _, hRef, rfl, rfl⟩
  | number _ hMode =>
    rcases hMode with ⟨rfl, _⟩ | rfl
    · cases hIndexed
    · cases hIndexed
  | unary | returned | pointer | base | offset | call => cases hIndexed

theorem subscripted_of_uses (h : Everywhere (Use ctx) code) :
    ∀ i ∈ code, Subscripted ctx i := by
  intro i hI
  rcases append_of_mem hI with ⟨before, behind, hEq⟩
  exact (h before i behind hEq).subscripted

theorem subscripted_of_plain
    (ctx : Context)
    (h : i.mode.isIndexed = false) :
    Subscripted ctx i := fun hIndexed => nomatch h.symm.trans hIndexed

theorem subscripted_adjustStack
    (ctx : Context)
    (m : Mnemonic)
    (bytes : Int64) :
    ∀ i ∈ adjustStack m bytes, Subscripted ctx i := by
  intro i hI
  unfold adjustStack at hI
  split at hI
  · rw [mem_singleton.mp hI]
    exact subscripted_of_plain ctx rfl
  · cases hI

theorem subscripted_leaving
    (ctx : Context)
    (sig : Signature) :
    ∀ i ∈ sig.leaving none, Subscripted ctx i :=
  forall_mem_append.mpr ⟨subscripted_adjustStack ctx _ _,
    forall_mem_singleton.mpr (subscripted_of_plain ctx rfl)⟩

theorem subscripted_condition {label : String}
    (h : ctx.conditionCode label exit test = .ok code) :
    ∀ i ∈ code, Subscripted ctx i := by
  rcases conditionCode_uses h with ⟨_, _, rfl, _, _, hUses⟩
  exact forall_mem_append.mpr
    ⟨subscripted_of_uses hUses, forall_mem_singleton.mpr nofun⟩

theorem subscripted_mark
    (ctx : Context)
    (label : String) :
    ∀ i ∈ [mark label], Subscripted ctx i :=
  forall_mem_singleton.mpr (subscripted_of_plain ctx rfl)

theorem subscripted_jump_mark
    (ctx : Context)
    (target label : String) :
    ∀ i ∈ [.jump .br target, mark label], Subscripted ctx i :=
  forall_mem_cons.mpr ⟨subscripted_of_plain ctx rfl, subscripted_mark ctx label⟩

end Contexts

------------------------------------------------------------
-- Scopes
------------------------------------------------------------

/-
  A context of the top level, or of a function. What it binds
  is a global, or has a place in the frame of the function; and
  what the function has with the name of an array is an array.
-/
structure Homed (w : Outlook) (home : Option Routine) (ctx : Context) : Prop where
  function : ctx.function = home.map Routine.sig
  data : ∀ r ∈ home, ctx.table.data = r.data
  bound : ∀ b ∈ ctx.table.data, b ∈ w.globals ∨ ∃ r ∈ home,
          b.scope = .local r.sig.name ∧ ∃ d ∈ r.decls, d.name = b.target
  arrays : ∀ r ∈ home, ∀ name ∈ r.sig.locals.map Local.name ++ r.sig.params,
      isArrayName name = true → ∀ b, r.data.find name = some b → b.target ∈ ctx.arrays

/- An instruction that stands in the body of a function. -/
def Stands (r : Routine) (before : Code) (i : Instruction) (behind : Code) : Prop :=
  ∃ start inner tail rest, before = start ++ r.head ++ inner ∧ r.body = inner ++ i :: tail ∧
      behind = tail ++ rest

theorem stands_stable (r : Routine) : Stable (Stands r) := by
  rintro outer _ _ _ further ⟨start, inner, tail, rest, rfl, hBody, rfl⟩
  refine ⟨outer ++ start, inner, tail, rest ++ further, ?_, hBody, ?_⟩
  · simp only [append_assoc]
  · rw [append_assoc]

/-
  A statement whose code stands in some code, and was made in a
  context with some property.
-/
def Produced (Q : Context → Prop) (code : Code) (stmt : Stmt) : Prop :=
  ∃ g made next before behind, Q (Generator.context g) ∧ stmtCode g stmt = .ok (made, next) ∧
      code = before ++ made ++ behind

theorem Produced.extend {code : Code}
    (h : Produced Q code stmt)
    (first last : Code) :
    Produced Q (first ++ code ++ last) stmt := by
  rcases h with ⟨g, made, next, before, behind, hQ, hMade, rfl⟩
  refine ⟨g, made, next, first ++ before, behind ++ last, hQ, hMade, ?_⟩
  simp only [append_assoc]

theorem Produced.mono {Q' : Context → Prop} {code : Code}
    (h : Produced Q code stmt)
    (hImp : ∀ ctx, Q ctx → Q' ctx) :
    Produced Q' code stmt := by
  rcases h with ⟨g, made, next, before, behind, hQ, hPlace⟩
  exact ⟨g, made, next, before, behind, hImp _ hQ, hPlace⟩

section Blocks

variable (w : Outlook) (defined : List Definition) {name : String}

/-
  A context in which an instruction was made: that of some
  scope, or that of a function in which the instruction stands.
-/
def Sited (home : Option Routine) (ctx : Context) (before : Code) (i : Instruction)
    (behind : Code) : Prop :=
  ∃ home', Homed w home' ctx ∧ w.Allows ctx ∧
    (home' = home ∨ ∃ r, home' = some r ∧ Stands r before i behind ∧ ∃ d ∈ defined, w.Defines d r)

/- A call that was made in the scope in which it stands. -/
structure SitedCall (home : Option Routine) (s : CallSite) : Prop where
  made : s.From s.ctx
  sited : Sited w defined home s.ctx s.upTo s.jump (s.callee.cleanUp ++ s.behind)

/-
  What is known of the code of a block: the contexts of its
  subscripts, its calls, its returns, if it belongs to a
  function, and the code of its statements and functions. That
  of the statements of a function stands in its body.
-/
structure Scoped (home : Option Routine) (stmts : List Stmt) (made : List Definition)
    (calls : List Call) (returned : List (Option Expr)) (code : Code) : Prop where
  subscripts : Everywhere (fun before i behind =>
      ∃ ctx, Sited w defined home ctx before i behind ∧ Subscripted ctx i) code
  calls : Calling (SitedCall w defined home) calls code
  returns : ∀ r ∈ home, Everywhere (Returned r.sig r.data) code
  replies : ∀ r ∈ home, ∀ value ∈ returned, Replies r.sig r.data value code
  produced : ∀ stmt ∈ stmts, Produced (Homed w home) code stmt
  routines : ∀ d ∈ made, ∃ r : Routine, ∃ before behind, w.Defines d r ∧
        code = before ++ (r.head ++ r.body) ++ behind ∧ ∀ s ∈ flatten 0 d.body,
          Produced (Homed w (some r)) r.body s.stmt

variable {w defined}

theorem sited_stable
    (home : Option Routine)
    (ctx : Context) :
    Stable (Sited w defined home ctx) := by
  rintro _ _ _ _ _ ⟨home', hHomed, hAllows, hHome⟩
  refine ⟨home', hHomed, hAllows, hHome.imp_right ?_⟩
  rintro ⟨r, hSome, hStands, hOf⟩
  exact ⟨r, hSome, stands_stable r _ _ _ _ _ hStands, hOf⟩

theorem subscripts_stable (home : Option Routine) :
    Stable fun before i behind =>
      ∃ ctx, Sited w defined home ctx before i behind ∧ Subscripted ctx i := by
  rintro _ _ _ _ _ ⟨ctx, hSited, hSubscript⟩
  exact ⟨ctx, sited_stable home ctx _ _ _ _ _ hSited, hSubscript⟩

theorem SitedCall.extend {home : Option Routine}
    (s : CallSite)
    (outer further : Code)
    (h : SitedCall w defined home s) :
    SitedCall w defined home (s.extend outer further) where
  made := ⟨rfl, h.made.callee_eq, h.made.stores_eq⟩
  sited := by
    have hSited := sited_stable home s.ctx outer _ _ _ further h.sited
    rw [append_assoc] at hSited
    rw [CallSite.upTo_extend]
    exact hSited

theorem SitedCall.makes {home : Option Routine} {s : CallSite}
    (h : SitedCall w defined home s) :
    w.Makes s := by
  rcases h.sited with ⟨_, _, hAllows, _⟩
  exact ⟨hAllows.sight, hAllows.known, h.made.callee_eq, h.made.stores_eq⟩

/- What stands in the body of a function stands there in all the code. -/
theorem Sited.enclosed {home : Option Routine} {d : Definition} {ctx : Context}
    {before ending start rest : Code}
    (h : Sited w defined (some r) ctx before i behind)
    (hBody : r.body = before ++ i :: behind ++ ending)
    (hD : d ∈ defined)
    (hOf : w.Defines d r) :
    Sited w defined home ctx (start ++ r.head ++ before) i (behind ++ (ending ++ rest)) := by
  rcases h with ⟨home', hHomed, hAllows, hHome⟩
  refine ⟨home', hHomed, hAllows, .inr ?_⟩
  rcases hHome with rfl | ⟨r', hSome, hStands, hR⟩
  · refine ⟨r, rfl, ⟨start, before, behind ++ ending, rest, rfl, ?_, ?_⟩, d, hD, hOf⟩
    · rw [hBody, append_assoc, cons_append]
    · rw [append_assoc]
  · exact ⟨r', hSome, stands_stable r' _ _ _ _ _ hStands, hR⟩

variable {home : Option Routine} {ctx : Context} {code : Code}

/- The context of a scope may be that of any instruction. -/
theorem Homed.sited
    (hHomed : Homed w home ctx)
    (hAllows : w.Allows ctx)
    (before : Code)
    (i : Instruction)
    (behind : Code) :
    Sited w defined home ctx before i behind :=
  ⟨home, hHomed, hAllows, .inl rfl⟩

theorem Homed.subscripts
    (hHomed : Homed w home ctx)
    (hAllows : w.Allows ctx)
    (h : ∀ i ∈ code, Subscripted ctx i) :
    Everywhere (fun before i behind =>
      ∃ ctx, Sited w defined home ctx before i behind ∧ Subscripted ctx i) code :=
  .of_forall fun i hI before behind => ⟨ctx, hHomed.sited hAllows before i behind, h i hI⟩

variable (defined) in
/- Code without a statement of its own. -/
theorem scoped_of_still
    (hHomed : Homed w home ctx)
    (hAllows : w.Allows ctx)
    (hStill : Still code)
    (h : ∀ i ∈ code, Subscripted ctx i) :
    Scoped w defined home [] [] [] [] code where
  subscripts := hHomed.subscripts hAllows h
  calls := .none hStill.callCount_eq
  returns := fun _ _ => returned_of_goes fun i hI => (hStill i hI).2
  replies := fun _ _ _ hV => absurd hV not_mem_nil
  produced := fun _ hStmt => absurd hStmt not_mem_nil
  routines := fun _ hD => absurd hD not_mem_nil

variable {stmts : List Stmt}

namespace Scoped

theorem append {stmts₁ stmts₂ : List Stmt} {made₁ made₂ : List Definition}
    {calls₁ calls₂ : List Call} {returned₁ returned₂ : List (Option Expr)}
    {code₁ code₂ : Code}
    (h₁ : Scoped w defined home stmts₁ made₁ calls₁ returned₁ code₁)
    (h₂ : Scoped w defined home stmts₂ made₂ calls₂ returned₂ code₂) :
    Scoped w defined home (stmts₁ ++ stmts₂) (made₁ ++ made₂) (calls₁ ++ calls₂)
      (returned₁ ++ returned₂) (code₁ ++ code₂) where
  subscripts := .append (subscripts_stable home) h₁.subscripts h₂.subscripts
  calls := .append SitedCall.extend h₁.calls h₂.calls
  returns := fun r hR => .append (returned_stable _ _) (h₁.returns r hR) (h₂.returns r hR)
  replies := by
    intro r hR value hValue
    rcases mem_append.mp hValue with hValue | hValue
    · exact (h₁.replies r hR value hValue).extend [] code₂
    · have hMore := (h₂.replies r hR value hValue).extend code₁ []
      rwa [append_nil] at hMore
  produced := by
    intro stmt hStmt
    rcases mem_append.mp hStmt with hStmt | hStmt
    · exact (h₁.produced stmt hStmt).extend [] code₂
    · have hProduced := (h₂.produced stmt hStmt).extend code₁ []
      rwa [append_nil] at hProduced
  routines := by
    intro d hD
    rcases mem_append.mp hD with hD | hD
    · rcases h₁.routines d hD with ⟨r, before, behind, hOf, rfl, hProduced⟩
      exact ⟨r, before, behind ++ code₂, hOf, append_assoc .., hProduced⟩
    · rcases h₂.routines d hD with ⟨r, before, behind, hOf, rfl, hProduced⟩
      refine ⟨r, code₁ ++ before, behind, hOf, ?_, hProduced⟩
      simp only [append_assoc]

/- Code without a statement of its own may follow. -/
theorem followed
    (h : Scoped w defined home stmts made calls returned code)
    (hBehind : Scoped w defined home [] [] [] [] behind) :
    Scoped w defined home stmts made calls returned (code ++ behind) := by
  have hBoth := h.append hBehind
  rwa [append_nil, append_nil, append_nil, append_nil] at hBoth

end Scoped

variable {g g' : Generator}

theorem Grows.context_data (h : Grows g code g') :
    g'.context.table.data = g.context.table.data := by
  rcases h.scope with ⟨hBefore, hAfter⟩ | ⟨_, hSteady⟩
  · unfold Generator.context
    rw [hBefore, hAfter]
    exact h.data
  · exact hSteady.alike.data

/- A block stays in its scope. -/
theorem Homed.grows
    (hHomed : Homed w home g.context)
    (h : Grows g code g') :
    Homed w home g'.context where
  function := h.function_eq.trans hHomed.function
  data := fun r hR => h.context_data.trans (hHomed.data r hR)
  bound := by
    rw [h.context_data]
    exact hHomed.bound
  arrays := by
    intro r hR name hName hArray b hFound
    have hKept := hHomed.arrays r hR name hName hArray b hFound
    rcases h.arrays with ⟨_, hMore, _⟩
    rw [g.context_arrays] at hKept
    rw [g'.context_arrays, hMore]
    exact mem_append_left _ hKept

/- At the top level only globals are bound. -/
theorem homed_outside
    (hKnown : Known w g)
    (hOutside : g.context.function = none) :
    Homed w none g.context where
  function := hOutside
  data := nofun
  bound := by
    rw [Generator.context_table hOutside, hKnown.data]
    exact fun b hB => .inl hB
  arrays := nofun

/- The state in which a function is entered. -/
theorem homed_of_enter {entry : Generator.Entry}
    {parts : EnterParts g name params body entry g'}
    (hKnown : Known w g)
    (facts : EnterFacts parts)
    (code : Code) :
    Homed w (some (parts.routine code)) g'.context := by
  have hContext : g'.context.table = entry.table ∧ g'.context.function = some entry.sig := by
    unfold Generator.context
    rw [congrArg Generator.inside parts.after]
    exact ⟨rfl, rfl⟩
  have hBound : parts.bound.data = w.globals := by
    rw [facts.bound_eq, (SymbolTable.bind_labels rfl).2, hKnown.data]
  refine ⟨hContext.2, ?_, ?_, ?_⟩
  · rintro _ ⟨⟩
    rw [hContext.1]
    rfl
  · intro b hB
    rw [hContext.1, parts.table_eq] at hB
    rcases facts.frame.data b hB with hOuter | ⟨hScope, d, hD, hName⟩
    · exact .inl (hBound ▸ (SymbolTable.child_data hOuter).1)
    · refine .inr ⟨_, rfl, ?_, d, hD, hName⟩
      exact hScope.trans (congrArg Scope.local facts.signature.name_eq.symm)
  · rintro _ ⟨⟩ other hOther hArray b hFound
    rw [g'.context_arrays, parts.after]
    refine mem_append_right _ (mem_map.mpr
      ⟨other, mem_filter.mpr ⟨hOther, hArray⟩, ?_⟩)
    change entry.table.data.find other = some b at hFound
    rw [SymbolTable.lookup?, hFound]
    rfl

------------------------------------------------------------
-- Blocks
------------------------------------------------------------

theorem callCount_leaving
    (sig : Signature)
    (slot : Option String) :
    callCount (sig.leaving slot) = 0 := by
  have hStill := ((still_storeValue slot).append (still_adjustStack sig.localsSize rfl :
    Still (adjustStack .addsp _))).callCount_eq
  unfold callCount at hStill
  unfold callCount Signature.leaving
  rw [countP_append, hStill]
  rfl

section

variable (hHomed : Homed w home g.context) (hAllows : w.Allows g.context)
include hHomed hAllows

/- The code of a definition is that of its function. -/
theorem Scoped.define {g₁ next : Generator} {entry : Generator.Entry}
    {parts : EnterParts g name params body entry g₁}
    (hMade : stmtCode g (.define line name params body) = .ok (entry.wrap body code, next))
    (hOf : w.Defines ⟨name, params, body⟩ (parts.routine code))
    (hDefined : ⟨name, params, body⟩ ∈ defined)
    (h : Scoped w defined (some (parts.routine code)) (opened body) made calls returned code) :
    Scoped w defined home [.define line name params body] [⟨name, params, body⟩] calls []
      (entry.wrap body code) := by
  let ending : Code := if endsWithReturn body then [] else entry.sig.leaving none
  let head : Code := [.jump .br entry.landing] ++ (parts.routine code).head
  have hSplit : entry.wrap body code = head ++ code ++ (ending ++ [mark entry.landing]) := by
    rw [parts.wrap_eq]
    simp only [EnterParts.routine, append_assoc, ending, head]
  have hBody : (parts.routine code).body = code ++ ending := rfl
  have hNone : home = none := by
    have hFunction := hHomed.function
    unfold Generator.context at hFunction
    rw [parts.outside] at hFunction
    exact Option.map_eq_none_iff.mp hFunction.symm
  subst hNone
  have hHead : Still head := (still_jump_mark _ _).append (still_adjustStack _ rfl)
  have hEnding : callCount (ending ++ [mark entry.landing]) = 0 ∧
      ∀ i ∈ ending ++ [mark entry.landing], Subscripted g.context i := by
    have hLast := (still_mark entry.landing).callCount_eq
    have hMark := subscripted_mark g.context entry.landing
    unfold ending
    split
    · exact ⟨hLast, hMark⟩
    · refine ⟨?_, forall_mem_append.mpr ⟨subscripted_leaving _ _, hMark⟩⟩
      have hLeave := callCount_leaving entry.sig none
      unfold callCount at *
      rw [countP_append, hLeave, hLast]
  rw [hSplit]
  refine ⟨.between (subscripts_stable none) ?_ ?_ (hHomed.subscripts hAllows hEnding.2),
    h.calls.between hHead.callCount_eq hEnding.1 ?_, fun _ hR => (Option.not_mem_none _ hR).elim,
    fun _ hR => (Option.not_mem_none _ hR).elim, ?_, ?_⟩
  · refine hHomed.subscripts hAllows (forall_mem_append.mpr
      ⟨forall_mem_singleton.mpr (subscripted_of_plain _ rfl), forall_mem_cons.mpr
        ⟨subscripted_of_plain _ rfl, subscripted_adjustStack _ _ _⟩⟩)
  · intro before i behind hEq
    rcases h.subscripts before i behind hEq with ⟨ctx, hSited, hSubscript⟩
    exact ⟨ctx, hSited.enclosed (hBody.trans (congrArg (· ++ ending) hEq)) hDefined hOf, hSubscript⟩
  · intro s hCode hS
    refine ⟨⟨rfl, hS.made.callee_eq, hS.made.stores_eq⟩, ?_⟩
    have hSited : Sited w defined none s.ctx (head ++ s.upTo) s.jump
        (s.callee.cleanUp ++ s.behind ++ (ending ++ [mark entry.landing])) :=
      hS.sited.enclosed (hBody.trans (congrArg (· ++ ending) hCode)) hDefined hOf
    rw [append_assoc s.callee.cleanUp] at hSited
    rw [CallSite.upTo_extend]
    exact hSited
  · intro _ hStmt
    rw [mem_singleton.mp hStmt, ← hSplit]
    refine ⟨g, _, next, [], [], hHomed, hMade, ?_⟩
    rw [nil_append, append_nil]
  · intro _ hD
    rw [mem_singleton.mp hD, ← hSplit]
    refine ⟨parts.routine code, _, _, hOf, parts.wrap_eq code, ?_⟩
    intro _ hS
    exact (h.produced _ (mem_map_of_mem hS)).extend [] ending

/- The code of a statement without a block. -/
theorem Plain.scoped (h : Plain g stmt code g') :
    Scoped w defined home [stmt] [] (g.calls stmt) (stmtReturns stmt) code := by
  have hTied := composed_tied g.context
  have hCalls : ∀ {calls first}, Tied g.context calls first →
      Calling (SitedCall w defined home) calls first := by
    rintro _ _ ⟨⟨sites, hEq, hListed, hFrom⟩, _⟩
    refine ⟨sites, hEq, hListed, fun s hS => ?_⟩
    have hMade := hFrom s hS
    have hContext := hMade.ctx_eq
    rw [← hContext] at hMade hHomed hAllows
    exact ⟨hMade, hHomed.sited hAllows _ _ _⟩
  have hProduced : Produced (Homed w home) code stmt := by
    refine ⟨g, code, g', [], [], hHomed, h.stmtCode_eq, ?_⟩
    rw [nil_append, append_nil]
  have hOf : Calling (SitedCall w defined home) (g.calls stmt) code →
      (∀ r ∈ home, Everywhere (Returned r.sig r.data) code) →
      (∀ r ∈ home, ∀ value ∈ stmtReturns stmt, Replies r.sig r.data value code) →
      Scoped w defined home [stmt] [] (g.calls stmt) (stmtReturns stmt) code :=
    fun hCalling hReturns hReplies =>
      ⟨hHomed.subscripts hAllows (subscripted_of_uses h.emitted.uses), hCalling, hReturns,
        hReplies, forall_mem_singleton.mpr hProduced, fun _ hD => absurd hD not_mem_nil⟩
  cases hTied.plain h with
  | through hCode hReturn =>
    have hNone : stmtReturns stmt = [] := by
      cases h with
      | ret => cases hReturn
      | _ => rfl
    refine hOf (hCalls hCode) (fun _ _ => returned_of_goes hCode.goes) ?_
    rw [hNone]
    exact fun _ _ _ hV => absurd hV not_mem_nil
  | stop =>
    have hStop : Still [.plain .stop] := still_singleton rfl (by decide) (by decide)
    exact hOf (.none hStop.callCount_eq) (fun _ _ => returned_of_goes fun i hI => (hStop i hI).2)
      fun _ _ _ hV => absurd hV not_mem_nil
  | @ret line result _ f hInside hFunction hTable hParts =>
    have hHome : ∀ r ∈ home, f.sig = r.sig ∧ f.table.data = r.data := by
      intro r hR
      have hSig := hHomed.function
      rw [hFunction, hR] at hSig
      exact ⟨Option.some.inj hSig, hTable ▸ hHomed.data r hR⟩
    -- The code of the value, and the end of the function.
    have hEnd : ∃ first slot, code = first ++ f.sig.leaving slot ∧
        Tied g.context (g.calls (.ret line result)) first ∧ IsReturnSlot f.table.data slot ∧
        slot.isSome = result.isSome ∧ ∀ e, result = some e →
          ∃ ctx : Context, ctx.function = some f.sig ∧ exprCode ctx .a e = .ok first := by
      cases hParts with
      | none => exact ⟨[], none, rfl, still_nil.tied, nofun, rfl, nofun⟩
      | some hMade hSlot =>
        refine ⟨_, some _, rfl, hTied.expr hMade, ?_, rfl, ?_⟩
        · rintro _ ⟨⟩
          exact dataTarget_eq_ok hSlot
        · rintro _ ⟨⟩
          exact ⟨g.context, hFunction, hMade⟩
    rcases hEnd with ⟨first, slot, rfl, hFirst, hSlot, hReply⟩
    refine hOf ?_ ?_ ?_
    · have hCalling := Calling.append SitedCall.extend (hCalls hFirst)
        (.none (callCount_leaving f.sig slot))
      rwa [append_nil] at hCalling
    · intro r hR
      rw [← (hHome r hR).1, ← (hHome r hR).2]
      exact returned_leaving hSlot hFirst.goes
    · intro r hR value hValue
      rw [mem_singleton.mp hValue, ← (hHome r hR).1, ← (hHome r hR).2]
      exact ⟨[], first, slot, [], (append_nil _).symm, hSlot, hReply⟩

end

/- No function is defined in another one. -/
theorem Emits.definitions_eq_nil
    (h : Emits g stmts code g')
    (hInside : g.inside.isSome = true) :
    definitions stmts = [] := by
  induction h with
  | nil => rfl
  | plain hFirst _ ih =>
    have hNext := (hFirst.sheltered hInside).isSome hInside
    rw [definitions, hFirst.definitions_eq, ih hNext, append_nil]
  | guarded hLabels _ hBody _ ihBody ihRest =>
    have hTaken := hLabels.takes.sheltered.isSome hInside
    have hNext := (hBody.sheltered hTaken).isSome hTaken
    rw [definitions, hLabels.definitions_eq, ihBody hTaken, ihRest hNext, append_nil]
  | condElse _ hLabels _ hBody hOrElse _ ihBody ihElse ihRest =>
    have hTaken := hLabels.takes.sheltered.isSome hInside
    have hSecond := (hBody.sheltered hTaken).isSome hTaken
    have hNext := (hOrElse.sheltered hSecond).isSome hSecond
    rw [definitions, stmtDefinitions, ihBody hTaken, ihElse hSecond,
      ihRest hNext, append_nil, append_nil]
  | define hEnter =>
    rcases enter_parts hEnter with ⟨parts⟩
    rw [parts.outside] at hInside
    cases hInside

theorem Guarded.opened_eq {start target : String}
    (h : Guarded g line test body stmt start exit target g') :
    opened [stmt] = opened body := by
  cases h with
  | loop => exact opened_loop line test body
  | cond =>
    rw [opened_cond]
    exact append_nil _

/-
  A block at which some scope is at home. What a function sees
  is known from when it is entered, and its place when its code
  is around it.
-/
theorem composes_scoped (script : List Stmt) :
    Composes w fun g stmts code =>
      ∀ home d before seen, Homed w home g.context → Ahead script d before seen stmts g →
        (∀ d ∈ definitions stmts, d ∈ defined) →
        Scoped w defined home (opened stmts) (definitions stmts) (callsOf seen stmts)
          (returnsOf stmts) code where
  nil := fun _ _ _ _ _ _ _ => ⟨.nil, .none rfl, fun _ _ => .nil, nofun, nofun, nofun⟩
  cons := by
    intro _ _ stmt rest _ _ _ hMade hGrows hFirst hOthers home d before seen hHomed hAhead hDefined
    have hOpened := opened_cons stmt rest
    have hStays := stmtCode_stays hAhead.sees.distinct hMade
    have hOne := hFirst home d before seen hHomed (hAhead.first hOpened)
    rw [definitions, definitions, callsOf, callsOf, returnsOf, returnsOf, append_nil, append_nil,
      append_nil] at hOne
    rw [definitions, forall_mem_append] at hDefined
    rw [hOpened, definitions, callsOf, returnsOf]
    exact (hOne hDefined.1).append (hOthers home d _ _ (hHomed.grows hGrows)
      (hAhead.rest hOpened hStays) hDefined.2)
  taken := fun hTakes hGrows h home d before seen hHomed hAhead =>
    h home d before seen (hHomed.grows hGrows) (hAhead.taken hTakes.stays)
  plain := by
    intro _ _ _ _ hHere h _ _ _ _ hHomed hAhead _
    rw [definitions, definitions, callsOf, callsOf, returnsOf, returnsOf, append_nil, append_nil,
      append_nil, h.definitions_eq, opened_of_closed h.closed, ← h.calls_eq hAhead]
    exact h.scoped hHomed hHere.allows
  guarded := by
    intro g _ _ _ body stmt _ exit target _ _ hHere hLabels hTest hCode
      home d before seen hHomed hAhead hDefined
    have hOpened := hLabels.opened_eq
    have hAround : ∀ {c : Code}, Still c → (∀ i ∈ c, Subscripted g.context i) →
        Scoped w defined home [] [] [] [] c := scoped_of_still defined hHomed hHere.allows
    have hParts : stmtDefinitions stmt = definitions body ∧
        stmtCalls seen stmt = callsOf seen body ∧ stmtReturns stmt = returnsOf body := by
      cases hLabels with
      | loop => exact ⟨rfl, rfl, rfl⟩
      | cond => exact ⟨append_nil _, append_nil _, append_nil _⟩
    rw [definitions, definitions, append_nil, hParts.1] at hDefined ⊢
    rw [callsOf, callsOf, returnsOf, returnsOf, append_nil, append_nil, hOpened, hParts.2.1,
      hParts.2.2]
    exact ((hAround (still_condition hTest) (subscripted_condition hTest)).append
      (hCode home d before seen hHomed (hAhead.first (hOpened.trans (append_nil _).symm))
        hDefined)).followed (hAround (still_jump_mark target exit) (subscripted_jump_mark _ _ _))
  condElse := by
    intro g _ line test body orElse _ exit other _ _ _ _ hHere hTest hMade hGrows hCode hElseCode
      home d before seen hHomed hAhead hDefined
    have hOpened := opened_cond line test body orElse
    have hStays := blockCode_stays hAhead.sees.distinct hMade
    have hAround : ∀ {c : Code}, Still c → (∀ i ∈ c, Subscripted g.context i) →
        Scoped w defined home [] [] [] [] c := scoped_of_still defined hHomed hHere.allows
    rw [definitions, definitions, append_nil, stmtDefinitions] at hDefined ⊢
    rw [forall_mem_append] at hDefined
    rw [hOpened, callsOf, callsOf, stmtCalls, returnsOf, returnsOf, stmtReturns, append_nil,
      append_nil]
    exact ((((hAround (still_condition hTest) (subscripted_condition hTest)).append
      (hCode home d before seen hHomed (hAhead.first hOpened) hDefined.1)).followed
        (hAround (still_jump_mark exit other) (subscripted_jump_mark _ _ _))).append
      (hElseCode home d _ _ (hHomed.grows hGrows) (hAhead.rest hOpened hStays) hDefined.2)).followed
        (hAround (still_mark exit) (subscripted_mark _ exit))
  define := by
    intro _ _ _ line name params body _ code parts hHere hEnter facts hParams hInside hBody hCode
      _ _ _ seen hHomed hAhead hDefined
    have hNone : definitions body = [] := by
      refine hBody.definitions_eq_nil ?_
      rw [parts.after]
      rfl
    have hInner := hCode (some (parts.routine code)) _ _ _
      (homed_of_enter hHere.scope.known facts code) (hAhead.enter parts) fun _ hD => by
        rw [hNone] at hD
        cases hD
    have hOf := EnterParts.defines hHere hInside hParams facts
      (hInner.returns (parts.routine code) rfl) (hInner.replies (parts.routine code) rfl)
    have hMade := stmtCode_define line hEnter hBody.blockCode_eq
    have hOpened : opened [.define line name params body] = [.define line name params body] :=
      opened_of_closed rfl
    have hCalls : callsOf seen [.define line name params body] = callsOf params body :=
      append_nil _
    rw [definitions, definitions, append_nil, stmtDefinitions] at hDefined ⊢
    rw [hOpened, hCalls, returnsOf, returnsOf, append_nil]
    exact hInner.define hHomed hHere.allows hMade hOf (hDefined _ mem_cons_self)

end Blocks

------------------------------------------------------------
-- Arrays of a Scope
------------------------------------------------------------

/-
  How a context of some scope refers to arrays. A parameter
  with the name of an array is addressed through its slot, and
  a local variable in the frame. All other references to arrays
  are to global ones, which are addressed by their symbols.
-/
structure Resolves (p : Program) (home : Option Routine) (ctx : Context) : Prop where
  function : ctx.function = home.map Routine.sig
  params : ∀ r ∈ home, ∀ name ∈ r.sig.params, isArrayName name = true → ∃ b,
        r.data.find name = some b ∧ ctx.reference name = .ok ⟨b.target, .stackDeferredIndexed⟩
  locals : ∀ r ∈ home, ∀ l ∈ r.sig.locals, isArrayName l.name = true →
      ∃ d ∈ r.decls, ctx.reference l.name = .ok ⟨d.name, .stackIndexed⟩
  arrays : ∀ id ref, ctx.reference id = .ok ref → ref.mode.isIndexed = true →
      (∃ d ∈ p.data, ref = ⟨d.name, .indexed⟩) ∨ ∃ r ∈ home, (id ∈ r.sig.params ∧ ∃ b,
              r.data.find id = some b ∧ ref = ⟨b.target, .stackDeferredIndexed⟩) ∨
          (id ∉ r.sig.params ∧ ∃ d ∈ r.decls, ref = ⟨d.name, .stackIndexed⟩)

section Modes

variable {ctx : Context} {name : String} {b : Binding}

theorem mode_of_global
    (hScope : b.scope = .global)
    (h : (ctx.mode name b).isIndexed = true) :
    ctx.mode name b = .indexed := by
  have hArray := contains_iff_mem.mpr (Context.mem_arrays_of_indexed h)
  unfold Context.mode at h ⊢
  split at h
  · cases h
  · next hConstant =>
    rw [if_neg hConstant, if_pos hArray, if_neg (by simp [hScope])]

theorem mode_of_frame {sig : Signature}
    (hFunction : ctx.function = some sig)
    (hScope : b.scope ≠ .global)
    (hArray : b.target ∈ ctx.arrays) :
    ctx.mode name b =
      if name ∈ sig.params then .stackDeferredIndexed
      else .stackIndexed := by
  unfold Context.mode Context.isParam
  rw [if_neg (by simp [hScope]), if_pos (contains_iff_mem.mpr hArray),
    if_pos (by simp [hFunction, hScope]), hFunction]
  simp only [Option.any_some, contains_iff_mem]

end Modes

theorem Homed.reference_of_found {w : Outlook} {ctx : Context} {name : String}
    {b : Binding}
    (h : Homed w (some r) ctx)
    (hName : name ∈ r.sig.locals.map Local.name ++ r.sig.params)
    (hArray : isArrayName name = true)
    (hFound : r.data.find name = some b)
    (hScope : b.scope ≠ .global) :
    ctx.reference name =
      .ok ⟨b.target, if name ∈ r.sig.params then .stackDeferredIndexed
        else .stackIndexed⟩ := by
  have hTarget := h.arrays r rfl name hName hArray b hFound
  unfold Context.reference SymbolTable.lookup?
  rw [h.data r rfl, hFound]
  dsimp only
  rw [mode_of_frame h.function hScope hTarget]

section Programs

variable {options : Options} {stmts : List Stmt} {compiled : Compiled}

/- All statements, calls, returns and subscripts of a program. -/
theorem scoped_of_parts
    (hNamed : Script.WellNamed stmts)
    (parts : Parts options .empty stmts compiled)
    (hAllocated : allocateGlobals .empty parts.globals.vars =
      (parts.bound, .ok compiled.program.data)) :
    Scoped parts.outlook (definitions stmts) none (opened stmts) (definitions stmts)
      (callsOf [] stmts) (returnsOf stmts) compiled.program.code := by
  have hHere := moment_of_parts parts hNamed
  have hHomed : Homed parts.outlook none parts.started.context :=
    homed_outside hHere.scope.known (steady_label isStem_landing parts.labelled).1.alike.function
  have hAhead : Ahead stmts none [] [] stmts parts.started := by
    refine ⟨sees_start parts.analyzed hAllocated parts.labelled, ⟨[], ?_⟩, ?_⟩
    · rw [nil_append, append_nil]
      rfl
    · simp [targetNames]
  have hCode := composed_of_parts parts hNamed (composes_scoped stmts) none none [] [] hHomed hAhead
    fun _ h => h
  have hAround : ∀ {c : Code}, Still c → (∀ i ∈ c, Subscripted parts.started.context i) →
      Scoped parts.outlook (definitions stmts) none [] [] [] [] c :=
    scoped_of_still _ hHomed hHere.allows
  have hMark := hAround (still_mark parts.entry) (subscripted_mark _ parts.entry)
  have hEnding : Scoped parts.outlook (definitions stmts) none [] [] [] [] (ending stmts) := by
    unfold ending
    split
    · exact hAround still_nil (forall_mem_nil _)
    · exact hAround (still_singleton rfl (by decide) (by decide))
        (forall_mem_singleton.mpr (subscripted_of_plain _ rfl))
  have hAll := (hMark.append hCode).followed hEnding
  rw [nil_append, nil_append, nil_append, nil_append] at hAll
  rw [parts.code_eq]
  exact hAll

/- The labels of functions stand for different functions. -/
theorem labels_nodup_of_allocated {parts : Parts options .empty stmts compiled}
    (hAllocated : allocateGlobals .empty parts.globals.vars =
        (parts.bound, .ok compiled.program.data)) :
    (compiled.table.labels.map Binding.source).Nodup := by
  have hMarks := allocateGlobals_marks hAllocated
  have hLabel := stays_label isStem_landing parts.labelled
  have hDistinct : Distinct parts.started.context.table.data := hLabel.data ▸ hMarks.tidy.distinct
  rcases parts.emits.visits hDistinct with ⟨_, _, hFollowed, _⟩
  rcases (hFollowed.after hLabel).stays.tidy hMarks.tidy with ⟨_, hOrderly⟩
  rw [parts.table_eq]
  exact hOrderly.filed.sources .label

variable {parts : Parts options .empty stmts compiled}

/- Arrays are addressed as their scope has them. -/
theorem Homed.resolves {home : Option Routine} {ctx : Context}
    (facts : Facts parts)
    (h : Homed parts.outlook home ctx)
    (hOf : ∀ r ∈ home, ∃ d, parts.outlook.Defines d r) :
    Resolves compiled.program home ctx where
  function := h.function
  params := by
    rintro r ⟨⟩ _ hName hArray
    rcases hOf r rfl with ⟨_, hR⟩
    rcases mem_iff_getElem?.mp hName with ⟨_, hParam⟩
    rcases hR.param hParam with ⟨_, _, hFound⟩
    refine ⟨_, hFound, ?_⟩
    rw [h.reference_of_found (mem_append_right _ hName) hArray hFound nofun, if_pos hName]
  locals := by
    rintro r ⟨⟩ l hL hArray
    rcases hOf r rfl with ⟨_, hR⟩
    have hRecorded := analyzeFunction_recorded hR.analyzed
    have hNot : l.name ∉ r.sig.params := by
      intro hParam
      refine hRecorded.locals.own (l.name, l.size) (mem_map_of_mem hL) (.inl ?_)
      rw [← hRecorded.params_eq]
      exact hParam
    have hSource : l.name ∈ (frameSlots r.sig).map Slot.source := by
      rw [frameSlots_frameSources]
      exact mem_append_left _ (mem_append_left _ (mem_map_of_mem hL))
    rcases mem_map.mp hSource with ⟨slot, hSlot, hSame⟩
    rcases hR.places.found slot hSlot with ⟨place, hPlace, hFound⟩
    rw [hSame] at hFound
    refine ⟨place, hPlace, ?_⟩
    rw [h.reference_of_found (mem_append_left _ (mem_map_of_mem hL)) hArray hFound
      nofun, if_neg hNot]
  arrays := by
    intro id _ hRef hIndexed
    rcases reference_eq_ok hRef with ⟨b, hFound, rfl⟩
    rcases Bindings.find_eq_some hFound with ⟨hB, _⟩
    rcases h.bound b hB with hGlobal | ⟨r, rfl, hScope, d, hD, hName⟩
    · rcases facts.variable hGlobal with ⟨_, hVar⟩
      refine .inl ⟨_, hVar.declared, ?_⟩
      rw [Storage.declaration_name, mode_of_global (congrArg Binding.scope hVar.binding) hIndexed]
    · have hLocal : b.scope ≠ .global := by
        rw [hScope]
        nofun
      have hMode := @mode_of_frame ctx id b r.sig h.function hLocal
        (Context.mem_arrays_of_indexed hIndexed)
      refine .inr ⟨r, rfl, ?_⟩
      by_cases hParam : id ∈ r.sig.params
      · rw [if_pos hParam] at hMode
        rw [h.data r rfl] at hFound
        exact .inl ⟨hParam, b, hFound, by rw [hMode]⟩
      · rw [if_neg hParam] at hMode
        exact .inr ⟨hParam, d, hD, by rw [hMode, hName]⟩

end Programs

end Compile

end Pep9
