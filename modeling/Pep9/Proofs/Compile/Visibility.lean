import Pep9.Proofs.Compile.Tiling

/-
  The variables in sight. At the top level they are those that
  are assigned to there. In a function they are its parameters,
  what its body assigns to, and the constants and arrays of the
  top level; a constant that only its body assigns to is not
  among them. The tables of the generator bind exactly these,
  as long as it walks through the scope.

  Key theorems: `SymbolTable.child_binds`, `sees_start`,
  `Sees.stays`, `Sees.enter`.
-/

namespace Pep9

open List Result
open Listing (Declaration)
open Script (Expr Stmt IsIdentifier)

variable {code : Code} {globals : Globals} {scope : Scope} {target : String}
  {value : Expr}

namespace Compile

variable {t' t : SymbolTable} {name : String} {stmt : Stmt} {stmts : List Stmt} {usual : Int64}
  {sig : Signature}

namespace SymbolTable

/- The table has a variable with this name. -/
def Binds (t : SymbolTable) (name : String) : Prop :=
  (t.lookup? name).isSome = true

theorem binds_iff : t.Binds name ↔ ∃ b ∈ t.data, b.source = name := by
  unfold Binds lookup? Bindings.find
  rw [find?_isSome]
  simp

theorem not_binds_empty : ¬ empty.Binds name := by
  simp [binds_iff, empty]

theorem bind_binds (b : Binding) :
    (t.bind b).Binds name ↔
      t.Binds name ∨ b.kind = .data ∧ b.source = name := by
  cases hKind : b.kind with
  | label => simp [Binds, lookup?, (bind_labels hKind).2]
  | data =>
    unfold Binds lookup?
    rw [(bind_data hKind).1]
    by_cases hName : name = b.source
    · subst hName
      simp [Bindings.find_set_self]
    · rw [Bindings.find_set_of_ne hName]
      simp [eq_comm (a := b.source), hName]

theorem addAll_binds (bindings : List Binding) :
    (t.addAll bindings).Binds name ↔
      t.Binds name ∨ ∃ b ∈ bindings, b.kind = .data ∧ b.source = name := by
  unfold addAll
  induction bindings generalizing t with
  | nil => simp
  | cons _ _ ih =>
    rw [foldl_cons, ih, bind_binds, or_assoc]
    simp only [mem_cons, exists_eq_or_imp]

/- A function sees exactly the constants and arrays. -/
theorem child_binds (h : Tidy t) :
    t.child.Binds name ↔ t.Binds name ∧
        (isConstantName name = true ∨ isArrayName name = true) := by
  have hConstants : t.child.Binds name ↔ ∃ b ∈ t.constants, b.kind = .data ∧ b.source = name := by
    unfold child setLabels
    rw [addAll_binds]
    change (SymbolTable.addAll _ t.constants).Binds name ∨ _ ↔ _
    rw [addAll_binds]
    constructor
    · rintro ((hEmpty | hConstant) | ⟨b, hB, hKind, _⟩)
      · exact absurd hEmpty not_binds_empty
      · exact hConstant
      · rcases mem_map.mp hB with ⟨_, _, rfl⟩
        cases hKind
    · exact fun hConstant => .inl (.inr hConstant)
  rw [hConstants, binds_iff]
  unfold constants Bindings.sorted
  simp only [mem_mergeSort, mem_filter, Bool.or_eq_true]
  constructor
  · rintro ⟨b, ⟨hB, hSeen⟩, _, rfl⟩
    exact ⟨⟨b, hB, rfl⟩, hSeen⟩
  · rintro ⟨⟨b, hB, rfl⟩, hSeen⟩
    rcases h with ⟨_, hOrderly⟩
    exact ⟨b, ⟨hB, hSeen⟩, hOrderly.filed.kind .data b hB, rfl⟩

theorem bindGlobal_label_binds {label : String}
    (h : t.bindGlobal .label label = .ok (target, t')) :
    t'.Binds name ↔ t.Binds name := by
  rcases bindGlobal_cases h with ⟨_, _, _, _, rfl⟩ | ⟨_, _, _, rfl⟩
  · rfl
  · simp [bind_binds]

end SymbolTable

theorem BindsIn.binds {source : String}
    (h : BindsIn scope source target t t') :
    t'.Binds name ↔ t.Binds name ∨ name = source := by
  cases h with
  | again hFound =>
    refine ⟨.inl, ?_⟩
    rintro (hOld | rfl)
    · exact hOld
    · unfold SymbolTable.Binds SymbolTable.lookup?
      rw [hFound]
      rfl
  | fresh => simp [SymbolTable.bind_binds, eq_comm]

/- Exactly the names that got targets are bound with those before. -/
theorem Allots.binds {α : Type}
    {bind : SymbolTable → α → Except Error (String × SymbolTable)}
    {marked : α → Bool} {declare : α → String → Declaration}
    {source : α → String} {xs : List α} {decls : List Declaration}
    (h : Allots bind marked declare t xs t' decls)
    (hBinds : ∀ {t x target bound}, bind t x = .ok (target, bound) →
        BindsIn scope (source x) target t bound) :
    t'.Binds name ↔ t.Binds name ∨ name ∈ xs.map source := by
  induction h with
  | nil => simp
  | @cons x _ target _ bound _ _ hBind _ ih =>
    have hMarked : (markIf (marked x) target bound).Binds name ↔ bound.Binds name := by
      unfold SymbolTable.Binds SymbolTable.lookup?
      rw [(markIf_bindings _ target bound).1]
    rw [ih, hMarked, (hBinds hBind).binds, map_cons, mem_cons, or_assoc]

/-
  The statements of a block in the order of the text, with
  those of the blocks in it.
-/
def opened (stmts : List Stmt) : List Stmt :=
  (flatten 0 stmts).map Located.stmt

mutual

/- The line around a statement changes lines only. -/
theorem flattenStmt_stmts
    (outer inner : Int)
    (stmt : Stmt) :
    (flattenStmt outer stmt).map Located.stmt = (flattenStmt inner stmt).map Located.stmt := by
  cases stmt with
  | cond _ _ body orElse =>
    rw [flattenStmt, flattenStmt, map_append, map_append]
    exact congrArg₂ _ (flatten_stmts _ _ body) (flatten_stmts _ _ orElse)
  | loop _ _ body | each _ _ _ body => exact flatten_stmts _ _ body
  | _ => rfl

theorem flatten_stmts
    (outer inner : Int)
    (stmts : List Stmt) :
    (flatten outer stmts).map Located.stmt = (flatten inner stmts).map Located.stmt := by
  cases stmts with
  | nil => rfl
  | cons stmt rest =>
    rw [flatten, flatten, map_append, map_append]
    exact congrArg₂ _ (flattenStmt_stmts _ _ stmt) (flatten_stmts _ _ rest)

end

theorem opened_cons
    (stmt : Stmt)
    (rest : List Stmt) :
    opened (stmt :: rest) = opened [stmt] ++ opened rest := by
  simp [opened, flatten]

theorem opened_of_closed (h : opens stmt = false) : opened [stmt] = [stmt] := by
  simp [opened, flatten, flattenStmt_of_closed h]

theorem opened_loop
    (line : Int)
    (test : Expr)
    (body : List Stmt) :
    opened [.loop line test body] = opened body := by
  simp [opened, flatten, flattenStmt, flatten_stmts _ 0 body]

theorem opened_cond
    (line : Int)
    (test : Expr)
    (body orElse : List Stmt) :
    opened [.cond line test body orElse] = opened body ++ opened orElse := by
  simp [opened, flatten, flattenStmt, flatten_stmts _ 0 body, flatten_stmts _ 0 orElse]

theorem assignedIn_opened (stmts : List Stmt) :
    assignedIn (flatten 0 stmts) = (opened stmts).flatMap assigned := (flatMap_map ..).symm

/- The variables that statements assign to themselves, in order. -/
def targetNames (stmts : List Stmt) : List String :=
  (stmts.flatMap assigned).map Prod.fst

theorem targetNames_append (first second : List Stmt) :
    targetNames (first ++ second) =
      targetNames first ++ targetNames second := by
  simp [targetNames]

theorem not_mem_targetNames :
    name ∉ targetNames stmts ↔ ∀ p ∈ stmts.flatMap assigned, p.1 ≠ name := by
  unfold targetNames
  rw [mem_map, not_exists]
  exact forall_congr' fun p => not_and

/- The variables that a block assigns to. -/
def assignedNames (stmts : List Stmt) : List String :=
  targetNames (opened stmts)

section

variable {g g' : Generator} (hDistinct : Distinct g.context.table.data)
include hDistinct

/- What the code of a block leaves of the scope. -/
theorem blockCode_stays (h : blockCode g stmts = .ok (code, g')) :
    Stays ((opened stmts).flatMap assigned) g g' := by
  rcases (blockCode_emits stmts h).visits hDistinct with ⟨_, _, hFollowed, hStmts⟩
  rw [← assignedIn_opened, ← made_eq (hStmts 0)]
  exact hFollowed.stays

theorem stmtCode_stays (h : stmtCode g stmt = .ok (code, g')) :
    Stays ((opened [stmt]).flatMap assigned) g g' :=
  blockCode_stays hDistinct (blockCode_cons h rfl)

end

------------------------------------------------------------
-- Visible Names
------------------------------------------------------------

/-
  The names that can be read at the top level of a script, or
  in one of its functions.
-/
def Visible (script : List Stmt) : Option Definition → String → Prop
  | none, name => name ∈ assignedNames script
  | some d, name =>
    name ∈ d.params ∨ name ∈ assignedNames d.body ∧ isConstantName name = false ∨
      name ∈ assignedNames script ∧ (isConstantName name = true ∨ isArrayName name = true)

/-
  The variables whose first assignment is left out: at the top
  level those with a known value and the arrays, in a function
  its own arrays.
-/
def Elided (script : List Stmt) : Option Definition → String → Prop
  | none, name =>
    ∃ value, firstValue? ((opened script).flatMap assigned) name = some value ∧
        ((∃ n, value = .literal n) ∨ isArrayName name = true)
  | some d, name =>
    isArrayName name = true ∧ name ∈ assignedNames d.body ∧ ¬ NotLocal d.params name

/- The statements of a scope. -/
def scopeBody (script : List Stmt) : Option Definition → List Stmt
  | none => script
  | some d => d.body

theorem mem_of_firstValue? {seen : List (String × Expr)}
    (h : firstValue? seen name = some value) :
    (name, value) ∈ seen := by
  rcases Option.map_eq_some_iff.mp h with ⟨p, hFound, rfl⟩
  have hSame : p.1 = name := by simpa using find?_some hFound
  rw [← hSame]
  exact mem_of_find?_eq_some hFound

/- Records have names that are assigned to. -/
theorem Recorded.mem_names {ρ : Type} {compute : String → Expr → Except Error ρ}
    {skipped : String → Prop} {record : List (String × ρ)}
    (h : Recorded compute skipped (assignedIn (flatten 0 stmts)) record) :
    name ∈ record.map Prod.fst ↔ name ∈ assignedNames stmts ∧ ¬ skipped name := by
  unfold assignedNames targetNames
  rw [← assignedIn_opened]
  constructor
  · intro hName
    rcases mem_map.mp hName with ⟨entry, hEntry, rfl⟩
    rcases h.first entry hEntry with ⟨_, hFirst, _⟩
    exact ⟨mem_map_of_mem (mem_of_firstValue? hFirst), h.own entry hEntry⟩
  · rintro ⟨hName, hOwn⟩
    rcases mem_map.mp hName with ⟨p, hP, rfl⟩
    exact (h.names p hP).resolve_left hOwn

/- The declared variables are those with known values and the arrays. -/
theorem storageOf_isDeclared {storage : Storage}
    (h : storageOf usual name value = .ok storage) :
    storage.isDeclared = true ↔
      (∃ n, value = .literal n) ∨ isArrayName name = true := by
  unfold storageOf at h
  split at h
  · next v =>
    rcases seq h with ⟨_, _, hDone⟩
    cases hDone
    refine ⟨fun _ => .inl ⟨v, rfl⟩, fun _ => ?_⟩
    split <;> rfl
  · next hLiteral =>
    have hValue : ¬ ∃ n, value = .literal n := fun ⟨n, hN⟩ => hLiteral n hN
    split at h
    · cases h
    · split at h
      · next hArray =>
        rcases seq h with ⟨_, _, hDone⟩
        cases hDone
        exact ⟨fun _ => .inr hArray, fun _ => rfl⟩
      · next hArray =>
        cases h
        exact ⟨nofun, fun h => absurd h (not_or.mpr ⟨hValue, hArray⟩)⟩

theorem Globals.mem_declared_iff {script : List Stmt}
    (h : analyzeGlobals usual script = .ok globals)
    (name : String) :
    name ∈ globals.declared ↔ Elided script none name := by
  have hRecorded := analyzeGlobals_recorded h
  have hFirst : ∀ v ∈ globals.vars, ∃ value,
        firstValue? ((opened script).flatMap assigned) v.name = some value ∧
          storageOf usual v.name value = .ok v.storage := by
    intro v hV
    rw [← assignedIn_opened]
    exact hRecorded.first (v.name, v.storage) (mem_map_of_mem hV)
  unfold Globals.declared
  constructor
  · intro hName
    rcases mem_map.mp hName with ⟨v, hV, rfl⟩
    rcases mem_filter.mp hV with ⟨hMem, hDeclared⟩
    rcases hFirst v hMem with ⟨value, hValue, hStorage⟩
    exact ⟨value, hValue, (storageOf_isDeclared hStorage).mp hDeclared⟩
  · rintro ⟨_, hValue, hKind⟩
    have hName : name ∈ globals.vars.map Global.name := by
      rw [← Globals.record_names, hRecorded.mem_names]
      exact ⟨mem_map_of_mem (mem_of_firstValue? hValue), not_false⟩
    rcases mem_map.mp hName with ⟨v, hV, rfl⟩
    rcases hFirst v hV with ⟨_, hValue', hStorage⟩
    rw [hValue, Option.some.injEq] at hValue'
    subst hValue'
    have hDeclared := (storageOf_isDeclared hStorage).mpr hKind
    exact mem_map.mpr ⟨v, mem_filter.mpr ⟨hV, hDeclared⟩, rfl⟩

theorem Signature.mem_frameSources (h : name ≠ returnSource) :
    name ∈ sig.frameSources ↔ name ∈ sig.locals.map Local.name ∨ name ∈ sig.params := by
  unfold Signature.frameSources
  split
  · simp [h]
  · simp

theorem Signature.add_hasReturn {sig' : Signature}
    (h : sig.add usual stmt = .ok sig')
    (hReturn : sig.hasReturn = true ∨ ∃ line e, stmt = .ret line (some e)) :
    sig'.hasReturn = true := by
  unfold Signature.add at h
  split at h
  · have hBefore : sig.hasReturn = true := by simpa using hReturn
    rcases seq h with ⟨_, _, h₁⟩
    split at h₁
    · rcases seq h₁ with ⟨_, _, hDone⟩
      cases hDone
      exact hBefore
    · split at h₁
      · cases h₁
        exact hBefore
      · rcases seq h₁ with ⟨_, _, hDone⟩
        cases hDone
        exact hBefore
  · cases h
    rfl
  · cases h
  · next hRet _ =>
    cases h
    rcases hReturn with hBefore | ⟨line, e, rfl⟩
    · exact hBefore
    · exact absurd rfl (hRet line e)

/- A function returns a value if one of its statements does. -/
theorem analyzeFunction_hasReturn {params : List String} {body : List Stmt}
    {line : Int} {e : Expr}
    (h : analyzeFunction usual name params body = .ok sig)
    (hRet : .ret line (some e) ∈ opened body) :
    sig.hasReturn = true := by
  have hFold : ∀ (items : List Located) (start : Signature),
        items.foldlM (fun sig s => located s.line (sig.add usual s.stmt)) start = .ok sig →
          (start.hasReturn = true ∨ .ret line (some e) ∈ items.map Located.stmt) →
            sig.hasReturn = true := by
    intro items
    induction items with
    | nil =>
      intro _ hDone hReturn
      cases hDone
      simpa using hReturn
    | cons _ _ ih =>
      intro _ hAll hReturn
      rw [foldlM_cons] at hAll
      rcases seq hAll with ⟨next, hNext, hRest⟩
      rw [located_eq_ok] at hNext
      refine ih next hRest ?_
      rw [map_cons, mem_cons, ← or_assoc] at hReturn
      refine hReturn.imp_left fun hNow => ?_
      exact Signature.add_hasReturn hNext (hNow.imp_right fun hEq => ⟨line, e, hEq.symm⟩)
  exact hFold _ _ h (.inr hRet)

/-
  A state of the generator in a scope, behind some of its
  statements. The variables that are bound are the visible
  ones, and a function that returns a value has a place for it.
  The mark of a variable stays until its first assignment.
-/
structure Sees (script : List Stmt) (home : Option Definition)
    (before : List Stmt) (g : Generator) : Prop where
  top : g.context.function.isSome = home.isSome
  tidy : Tidy g.table
  distinct : Distinct g.context.table.data
  bound : ∀ name, IsIdentifier name → (g.context.table.Binds name ↔ Visible script home name)
  value : home.isSome = true → ∀ line e, .ret line (some e) ∈ opened (scopeBody script home) →
        g.context.table.Binds returnSource
  marked : ∀ name b, g.context.table.data.find name = some b → (b.target ∈ g.context.table.special ↔
        Elided script home name ∧ name ∉ targetNames before)

namespace Sees

variable {script before : List Stmt} {home : Option Definition} {g g' : Generator}

theorem stays {more : List Stmt}
    (h : Sees script home before g)
    (hStays : Stays (more.flatMap assigned) g g') :
    Sees script home (before ++ more) g' := by
  have hBinds : ∀ name, g'.context.table.Binds name ↔ g.context.table.Binds name := by
    intro _
    unfold SymbolTable.Binds SymbolTable.lookup?
    rw [hStays.data]
  refine {
    top := ?_
    tidy := hStays.tidy h.tidy
    distinct := ?_
    bound := ?_
    value := ?_
    marked := ?_ }
  · rw [hStays.function]
    exact h.top
  · rw [hStays.data]
    exact h.distinct
  · intro name hName
    rw [hBinds]
    exact h.bound name hName
  · intro hInside line e hRet
    rw [hBinds]
    exact h.value hInside line e hRet
  · intro name b hFound
    rw [hStays.data] at hFound
    rw [hStays.special name b hFound, h.marked name b hFound,
      ← not_mem_targetNames, targetNames_append, mem_append, not_or, and_assoc]

theorem quiet
    (h : Sees script home before g)
    (hStays : Stays [] g g') :
    Sees script home before g' := by
  have hNone : Sees script home (before ++ []) g' := h.stays hStays
  rw [append_nil] at hNone
  exact hNone

/- A function sees its own variables, and some of those around it. -/
theorem enter {d : Definition} {entry : Generator.Entry}
    (h : Sees script none before g)
    (parts : EnterParts g d.name d.params d.body entry g') :
    Sees script (some d) [] g' := by
  have hRecorded := analyzeFunction_recorded parts.analyzed
  have hMarks := parts.marks h.tidy
  have hOutside : g.context.table = g.table := by
    unfold Generator.context
    rw [parts.outside]
  have hContext : g'.context.table = entry.table := by
    rw [parts.after]
    rfl
  have hLocal : ∀ name, name ∈ entry.sig.locals.map Local.name ↔
        name ∈ assignedNames d.body ∧ ¬ NotLocal d.params name := by
    intro _
    rw [← Signature.record_names]
    exact hRecorded.locals.mem_names
  have hBinds : ∀ name, g'.context.table.Binds name ↔ g.table.Binds name ∧
            (isConstantName name = true ∨ isArrayName name = true) ∨
          name ∈ entry.sig.frameSources := by
    intro _
    rw [hContext, parts.table_eq]
    unfold allocateFrame
    rw [(bindSlots_allots parts.complete).binds .onStack, frameSlots_frameSources,
      SymbolTable.child_binds (h.tidy.bindGlobal parts.label_eq),
      SymbolTable.bindGlobal_label_binds parts.label_eq]
  refine {
    top := ?_
    tidy := parts.outer.2.2 h.tidy
    distinct := hMarks.tidy.distinct
    bound := ?_
    value := ?_
    marked := ?_ }
  · rw [parts.after]
    rfl
  · intro name hName
    have hReturn : name ≠ returnSource := by
      rintro rfl
      exact not_isIdentifier_returnSource hName
    have hAround := h.bound name hName
    rw [hOutside] at hAround
    rw [hBinds, hAround, Signature.mem_frameSources hReturn, hLocal, hRecorded.params_eq]
    unfold NotLocal Visible
    by_cases hParam : name ∈ d.params
    · simp [hParam]
    · simp [hParam, or_comm]
  · intro _ _ _ hRet
    have hReturn := analyzeFunction_hasReturn parts.analyzed hRet
    rw [hBinds]
    unfold Signature.frameSources
    simp [hReturn]
  · intro name b hFound
    rw [hMarks.special name b hFound, mem_frameSlots_marked]
    unfold Signature.arrays Elided
    rw [mem_filter, hLocal, and_comm]
    simp [targetNames]

end Sees

/- The whole script is ahead when the generator starts. -/
theorem sees_start {script : List Stmt} {bound : SymbolTable}
    {data : List Declaration} {entry : String} {id : Nat} {started : Generator}
    (hAnalyzed : analyzeGlobals usual script = .ok globals)
    (hAllocated : allocateGlobals .empty globals.vars = (bound, .ok data))
    (hLabel : (Generator.start usual globals bound).label landingStem id = .ok (entry, started)) :
    Sees script none [] started := by
  have hMarks := allocateGlobals_marks hAllocated
  have hStays := stays_label isStem_landing hLabel
  have hStart : Sees script none [] (Generator.start usual globals bound) := by
    refine ⟨rfl, hMarks.tidy, hMarks.tidy.distinct, ?_, nofun, ?_⟩
    · intro name _
      change bound.Binds name ↔ _
      rw [(allocateGlobals_allots hAllocated).binds .global, ← Globals.record_names,
        (analyzeGlobals_recorded hAnalyzed).mem_names]
      simp [SymbolTable.not_binds_empty, Visible]
    · intro name b hFound
      refine (hMarks.special name b hFound).trans ?_
      rw [Globals.mem_declared, Globals.mem_declared_iff hAnalyzed]
      simp [targetNames]
  exact hStart.quiet hStays

end Compile

end Pep9
