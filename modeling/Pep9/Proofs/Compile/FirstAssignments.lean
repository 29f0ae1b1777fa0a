import Pep9.Proofs.Compile.Visits

/-
  First assignments. The analysis of a scope and the generator
  agree on the assignment that is left out: it is the first
  one in the order of the text, from which the declared value
  or size was computed. Every other assignment to a variable
  ends with the only instruction that stores to it.

  Key theorems: `Marks.step`, `storeCode_storesLast`,
  `Followed.leavesOut`, `generate_leavesOut`.
-/

namespace Pep9

open List Result
open Isa (Mnemonic)
open Listing (Instruction Declaration)
open Script (Expr Stmt)

variable {g' g₁ : Generator} {op : Mnemonic} {size usual : Int64}

namespace Compile

variable {name : String} {b : Binding} {ctx : Context} {code : Code}
  {g : Generator} {value : Expr} {visits : List Visit}

variable {t : SymbolTable} {body : List Stmt} {params : List String}

theorem mem_markIf {marked : Bool} {target other : String} :
    other ∈ (markIf marked target t).special ↔
      other ∈ t.special ∨ marked = true ∧ other = target := by
  unfold markIf
  split
  · next hMarked =>
    simp [SymbolTable.markSpecial, hMarked, or_comm]
  · next hMarked =>
    simp [hMarked]

/-
  A table after some names were bound in a scope, some of them
  with a mark: exactly these are marked.
-/
structure Marks (scope : Scope) (items : List (String × Bool)) (t : SymbolTable) : Prop where
  tidy : Tidy t
  used : ∀ target ∈ t.special, t.inUse target = true
  bound : ∀ item ∈ items, ∃ b, t.data.find item.1 = some b ∧ b.scope = scope
  special : ∀ name b, t.data.find name = some b → (b.target ∈ t.special ↔ (name, true) ∈ items)

/-
  A name that is bound in a scope: it was bound so before, or
  gets a target that was not in use.
-/
inductive BindsIn (scope : Scope) (source target : String)
    (t : SymbolTable) : SymbolTable → Prop where
  | again {b : Binding} (hFound : t.data.find source = some b) (hScope : b.scope = scope)
      (hTarget : b.target = target) : BindsIn scope source target t t
  | fresh (hNew : ∀ b, t.data.find source = some b → b.scope ≠ scope)
      (hFree : t.inUse target = false) :
      BindsIn scope source target t (t.bind ⟨source, target, .data, scope⟩)

namespace BindsIn

variable {scope : Scope} {source target : String} {t' : SymbolTable}

theorem global (h : t.bindGlobal .data name = .ok (target, t')) :
    BindsIn .global name target t t' := by
  rcases SymbolTable.bindGlobal_cases h with
    ⟨_, hFound, hScope, hTarget, rfl⟩ | ⟨hNew, hFree, _, rfl⟩
  · exact .again hFound hScope hTarget
  · exact .fresh hNew hFree

theorem onStack {owner : String}
    (h : t.bindLocalAs source name owner = .ok (target, t')) :
    BindsIn (.local owner) source target t t' := by
  rcases SymbolTable.bindLocalAs_cases h with
    ⟨_, hFound, hScope, hTarget, rfl⟩ | ⟨hNew, hFree, _, rfl⟩
  · exact .again hFound hScope hTarget
  · exact .fresh hNew hFree

variable (h : BindsIn scope source target t t')
include h

theorem tidy (hTidy : Tidy t) : Tidy t' := by
  cases h with
  | again => exact hTidy
  | fresh _ hFree =>
    rcases hTidy with ⟨_, hOrderly⟩
    exact ⟨_, hOrderly.bind hFree⟩

theorem found :
    ∃ b, t'.data.find source = some b ∧ b.scope = scope ∧ b.target = target := by
  cases h with
  | @again b hFound hScope hTarget => exact ⟨b, hFound, hScope, hTarget⟩
  | fresh =>
    refine ⟨⟨source, target, .data, scope⟩, ?_, rfl, rfl⟩
    rw [(SymbolTable.bind_data rfl).1]
    exact Bindings.find_set_self _ t.data

/- Other names of the scope are found as before. -/
theorem kept
    (hFound : t.data.find name = some b)
    (hScope : b.scope = scope) :
    t'.data.find name = some b := by
  cases h with
  | again => exact hFound
  | fresh hNew =>
    rw [(SymbolTable.bind_data rfl).1, Bindings.find_set_of_ne]
    · exact hFound
    · intro hSource
      change name = source at hSource
      subst hSource
      exact hNew b hFound hScope

theorem special_eq : t'.special = t.special := by
  cases h with
  | again => rfl
  | fresh => exact SymbolTable.bind_special t _

theorem inUse (hUsed : t.inUse name = true) :
    t'.inUse name = true := by
  cases h with
  | again => exact hUsed
  | fresh => exact SymbolTable.inUse_bind.mpr (.inr hUsed)

end BindsIn

namespace Marks

variable {scope : Scope} {items : List (String × Bool)} {source target : String}
  {t' : SymbolTable}

variable (h : Marks scope items t) (hBinds : BindsIn scope source target t t')
include h hBinds

/- A name that is bound has no mark yet, unless it had one. -/
theorem before (hFound : t'.data.find name = some b) :
    b.target ∈ t'.special ↔ (name, true) ∈ items := by
  rw [hBinds.special_eq]
  cases hBinds with
  | again => exact h.special name b hFound
  | fresh hNew hFree =>
    rw [(SymbolTable.bind_data rfl).1] at hFound
    by_cases hName : name = source
    · subst hName
      have hTarget : b.target = target := by
        have hSelf := Bindings.find_set_self ⟨name, target, .data, scope⟩ t.data
        rw [hSelf, Option.some.injEq] at hFound
        rw [← hFound]
      constructor
      · intro hMark
        have hUsed := h.used b.target hMark
        rw [hTarget, hFree] at hUsed
        cases hUsed
      · intro hItem
        rcases h.bound _ hItem with ⟨c, hC, hScope⟩
        exact absurd hScope (hNew c hC)
    · rw [Bindings.find_set_of_ne hName] at hFound
      exact h.special name b hFound

theorem step (marked : Bool) :
    Marks scope (items ++ [(source, marked)]) (markIf marked target t') := by
  rcases hBinds.found with ⟨b, hFound, hScope, hTarget⟩
  have hTidy := hBinds.tidy h.tidy
  have hB := (Bindings.find_eq_some hFound).1
  refine {
    tidy := hTidy.marked marked target
    used := ?_
    bound := ?_
    special := ?_ }
  · intro other hOther
    have hInUse : t'.inUse other = true := by
      rcases mem_markIf.mp hOther with hOld | ⟨_, hNew⟩
      · rw [hBinds.special_eq] at hOld
        exact hBinds.inUse (h.used other hOld)
      · rcases hTidy with ⟨_, hOrderly⟩
        rw [hNew, ← hTarget]
        exact hOrderly.inUse (k := .data) hB
    exact (markIf_inUse ..).trans hInUse
  · intro item hItem
    rw [(markIf_bindings marked target t').1]
    rcases mem_append.mp hItem with hOld | hLast
    · rcases h.bound item hOld with ⟨c, hC, hCScope⟩
      exact ⟨c, hBinds.kept hC hCScope, hCScope⟩
    · rw [mem_singleton.mp hLast]
      exact ⟨b, hFound, hScope⟩
  · intro name c hC
    rw [(markIf_bindings marked target t').1] at hC
    have hSame : c.target = target ↔ name = source := by
      rcases Bindings.find_eq_some hFound with ⟨_, hBSource⟩
      rcases Bindings.find_eq_some hC with ⟨hCMem, hCSource⟩
      constructor
      · intro hEq
        rw [← hCSource, ← hBSource]
        exact hTidy.distinct c hCMem b hB (hEq.trans hTarget.symm)
      · rintro rfl
        rw [hFound, Option.some.injEq] at hC
        rw [← hC, hTarget]
    rw [mem_markIf, mem_append, h.before hBinds hC, hSame,
      mem_singleton, Prod.mk.injEq, and_comm, eq_comm (b := marked)]

end Marks

namespace Allots

variable {α : Type} {bind : SymbolTable → α → Except Error (String × SymbolTable)}
  {marked : α → Bool} {declare : α → String → Declaration} {scope : Scope}
  {source : α → String} {t' : SymbolTable} {xs : List α} {decls : List Declaration}

variable (hAllots : Allots bind marked declare t xs t' decls)
  (hBinds : ∀ {t x target bound}, bind t x = .ok (target, bound) →
    BindsIn scope (source x) target t bound)
include hAllots hBinds

/- The names that are bound in turn, and their marks. -/
theorem marks {items : List (String × Bool)}
    (h : Marks scope items t) :
    Marks scope (items ++ xs.map fun x => (source x, marked x)) t' := by
  induction hAllots generalizing items with
  | nil =>
    rw [map_nil, append_nil]
    exact h
  | cons hBind _ ih =>
    have hMarks := ih (h.step (hBinds hBind) _)
    rw [append_assoc] at hMarks
    exact hMarks

/- What is found in the scope stays, and each name has its declaration. -/
theorem found :
    (∀ name b, t.data.find name = some b → b.scope = scope → t'.data.find name = some b) ∧
      ∀ x ∈ xs, ∃ b, t'.data.find (source x) = some b ∧ declare x b.target ∈ decls := by
  induction hAllots with
  | nil => exact ⟨fun _ _ hFound _ => hFound, by simp⟩
  | @cons x _ target _ bound _ _ hBind _ ih =>
    rcases ih with ⟨hKept, hRest⟩
    rw [(markIf_bindings _ target bound).1] at hKept
    refine ⟨fun _ _ hC hScope => hKept _ _ ((hBinds hBind).kept hC hScope) hScope, ?_⟩
    intro y hY
    rcases mem_cons.mp hY with rfl | hY
    · rcases (hBinds hBind).found with ⟨b, hFound, hScope, rfl⟩
      exact ⟨b, hKept _ b hFound hScope, mem_cons_self⟩
    · rcases hRest y hY with ⟨c, hC, hDecl⟩
      exact ⟨c, hC, mem_cons_of_mem _ hDecl⟩

end Allots

theorem marks_empty : Marks .global [] SymbolTable.empty := by
  refine ⟨⟨[], .empty⟩, ?_, ?_, ?_⟩
  · simp [SymbolTable.empty]
  · simp
  · simp [SymbolTable.empty, Bindings.find]

/- The global variables that are bound, and their marks. -/
theorem allocateGlobals_marks {vars : List Global} {decls : List Declaration}
    (h : allocateGlobals .empty vars = (t, .ok decls)) :
    Marks .global (vars.map fun v => (v.name, v.storage.isDeclared)) t :=
  (allocateGlobals_allots h).marks .global marks_empty

------------------------------------------------------------
-- Stores
------------------------------------------------------------

/- An instruction that stores to a target. -/
def StoresTo (target : String) (i : Instruction) : Prop :=
  (i.op = .known .stwa ∨ i.op = .known .stwx ∨ i.op = .known .deci) ∧ i.operand = .symbol target

/-
  Code whose last instruction, and no other one, stores to a
  target.
-/
def StoresLast (target : String) (code : Code) : Prop :=
  ∃ first last, code = first ++ [last] ∧ StoresTo target last ∧ ∀ i ∈ first, ¬ StoresTo target i

/- Code that stores to no variable. -/
def Storeless (code : Code) : Prop := ∀ i ∈ code, ∀ target, ¬ StoresTo target i

namespace Storeless

variable {first second : Code}

theorem append
    (h₁ : Storeless first)
    (h₂ : Storeless second) :
    Storeless (first ++ second) :=
  forall_mem_append.mpr ⟨h₁, h₂⟩

theorem number
    (op : Mnemonic)
    (value : Int64)
    (mode : Listing.Mode) :
    Storeless [.of op (.number value) mode] := by
  intro _ hI _ hStores
  rw [mem_singleton.mp hI] at hStores
  cases hStores.2

theorem unwritten
    (h : op.writesOperand = false)
    (operand : Listing.Operand)
    (mode : Listing.Mode) :
    Storeless [.of op operand mode] := by
  intro _ hI _ hStores
  rw [mem_singleton.mp hI] at hStores
  rcases hStores.1 with hOp | hOp | hOp
  · cases hOp
    cases h
  · cases hOp
    cases h
  · cases hOp
    cases h

theorem adjustStack (bytes : Int64) : Storeless (adjustStack op bytes) := by
  unfold Compile.adjustStack
  split
  · exact number op bytes .immediate
  · intro _ hI
    cases hI

theorem transfer (callee : Callee) : Storeless callee.transfer := by
  have hCall : Storeless [.jump .call callee.label] := unwritten rfl _ _
  have hLoad : Storeless [.of .ldwa (.number 0) .stackRelative] := number _ _ _
  unfold Callee.transfer
  refine ((adjustStack _).append hCall).append ?_
  split
  · exact ((adjustStack _).append hLoad).append (adjustStack _)
  · exact adjustStack _

theorem joined (ctx : Context) : Joined ctx Storeless where
  nil := fun _ hI => absurd hI not_mem_nil
  append := append
  literal := fun _ value => number _ value _
  slot := fun _ value => number _ value _
  read := fun hRead _ => unwritten hRead.unwritten _ _
  scale := unwritten rfl _ _
  base := fun _ _ _ => (unwritten rfl _ _).append (number _ _ _)
  offset := fun _ _ => (unwritten rfl _ _).append (unwritten rfl _ _)
  pointer := fun _ _ => unwritten rfl _ _

/- Expressions store to slots of arguments only. -/
theorem expr {r : Register} {e : Expr}
    (h : exprCode ctx r e = .ok code) :
    Storeless code :=
  (((joined ctx).exprCases (Q := fun _ => Storeless) id append
    fun _ _ hStores => hStores.append (transfer _)).expr h).1

end Storeless

/- An assignment to a variable stores once, at its end. -/
theorem storeCode_storesLast {ref : Reference}
    (h : g.storeCode name ref value = .ok code) :
    StoresLast ref.target code := by
  cases storeCode_parts h with
  | read => exact ⟨[], _, rfl, ⟨.inr (.inr rfl), rfl⟩, by simp⟩
  | @computed first _ hFirst =>
    refine ⟨first, _, rfl, ⟨?_, rfl⟩, fun i hI => Storeless.expr hFirst i hI ref.target⟩
    cases resultRegister value (g.context.registerFor name) with
    | a => exact .inl rfl
    | x => exact .inr (.inl rfl)

theorem assigned_cases (stmt : Stmt) :
    assigned stmt = [] ∨ ∃ line name others value,
        stmt = .assign line (.name name) others value := by
  unfold assigned
  split
  · exact .inr ⟨_, _, _, _, rfl⟩
  · exact .inl rfl

theorem stmtCode_assigned {next : Generator} {stmt : Stmt}
    (hStmt : assigned stmt = [(name, value)])
    (h : stmtCode g stmt = .ok (code, next)) :
    ∃ ref, g.context.reference name = .ok ref ∧
        (ref.target ∈ g.context.table.special ∧ code = [] ∨ ref.target ∉ g.context.table.special ∧
            isConstantName name = false ∧ ref.mode.isIndexed = false ∧
            StoresLast ref.target code) := by
  rcases assigned_cases stmt with hNone | ⟨line, _, _, _, rfl⟩
  · rw [hNone] at hStmt
    cases hStmt
  · cases hStmt
    rw [stmtCode, located_eq_ok] at h
    rcases seq h with ⟨_, _, hName⟩
    have hPlain : Plain g (.assign line (.name name) [] value) code next := assignName_plain hName
    cases hPlain with
    | elided hRef hSpecial =>
      refine ⟨_, hRef, .inl ⟨?_, rfl⟩⟩
      simpa [SymbolTable.isSpecial] using hSpecial
    | stored hRef hSpecial hConstant hMode hCode =>
      refine ⟨_, hRef, .inr ⟨?_, hConstant, hMode, storeCode_storesLast hCode⟩⟩
      simpa [SymbolTable.isSpecial] using hSpecial

/- The visit of the first assignment to a name. -/
theorem made_first (h : firstValue? (made visits) name = some value) :
    ∃ before v behind, visits = before ++ v :: behind ∧ assigned v.stmt = [(name, value)] ∧
        ∀ p ∈ made before, p.1 ≠ name := by
  induction visits with
  | nil => cases h
  | cons v rest ih =>
    have hMade : made (v :: rest) = assigned v.stmt ++ made rest := rfl
    have hLater : (∀ p ∈ assigned v.stmt, p.1 ≠ name) → firstValue? (made rest) name = some value →
        ∃ before w behind, v :: rest = before ++ w :: behind ∧ assigned w.stmt = [(name, value)] ∧
            ∀ p ∈ made before, p.1 ≠ name := by
      intro hOther hFirst
      rcases ih hFirst with ⟨before, w, behind, hSplit, hW, hBefore⟩
      refine ⟨v :: before, w, behind, by rw [hSplit]; rfl, hW, ?_⟩
      exact forall_mem_append.mpr ⟨hOther, hBefore⟩
    rw [hMade] at h
    rcases assigned_cases v.stmt with hNone | ⟨_, id, _, e, hV⟩
    · rw [hNone] at h
      refine hLater ?_ h
      rw [hNone]
      simp
    · have hAssigned : assigned v.stmt = [(id, e)] := by
        rw [hV]
        rfl
      rw [hAssigned] at h
      by_cases hName : id = name
      · have hValue : e = value := by simpa [firstValue?, hName] using h
        refine ⟨[], v, rest, rfl, ?_, by simp [made]⟩
        rw [hAssigned, hName, hValue]
      · refine hLater ?_ ?_
        · rw [hAssigned]
          simpa using hName
        · simpa [firstValue?, hName] using h

/-
  The visits of a scope in which some variables are declared
  with their first values. Their first assignments are empty,
  and were those that the declarations were computed from. All
  other assignments store to their variable, once and at the
  end, and none of them is to a variable that is fixed.
-/
structure LeavesOut (declared : List String) (computed : String → Expr → Prop)
    (fixed : String → Prop) (visits : List Visit) : Prop where
  first : ∀ name ∈ declared, ∃ before v behind value, visits = before ++ v :: behind ∧
        assigned v.stmt = [(name, value)] ∧ v.code = [] ∧
        computed name value ∧ ∀ p ∈ made before, p.1 ≠ name
  others : ∀ before v behind name value, visits = before ++ v :: behind →
        assigned v.stmt = [(name, value)] → (name ∈ declared → ∃ p ∈ made before, p.1 = name) →
          ¬ fixed name ∧ ∃ ref, v.state.context.reference name = .ok ref ∧
                StoresLast ref.target v.code

theorem isIndexed_of_array
    (hConstant : isConstantName name = false)
    (hArray : b.target ∈ ctx.arrays) :
    (ctx.mode name b).isIndexed = true := by
  unfold Context.mode
  rw [hConstant, Bool.false_and, if_neg (by simp), if_pos (contains_iff_mem.mpr hArray)]
  split
  · split
    · rfl
    · rfl
  · rfl

theorem Generator.context_arrays (g : Generator) :
    g.context.arrays = g.arrays := by
  unfold Generator.context
  split
  · rfl
  · rfl

/- Outside of functions the table of the top level is in sight. -/
theorem Generator.context_table (h : g.context.function = none) :
    g.context.table = g.table := by
  unfold Generator.context at h ⊢
  split at h
  · rfl
  · cases h

/-
  A walk leaves out the first assignments to all variables
  that are marked at its start.
-/
theorem Followed.leavesOut {declared : List String}
    {computed : String → Expr → Prop} {fixed : String → Prop}
    (h : Followed g visits g')
    (hMarked :
      ∀ name b, g.context.table.data.find name = some b →
        (b.target ∈ g.context.table.special ↔ name ∈ declared))
    (hComputed :
      ∀ name ∈ declared, ∃ value, firstValue? (made visits) name = some value ∧ computed name value)
    (hFixed : ∀ name value b, (name, value) ∈ made visits →
        g.context.table.data.find name = some b →
        fixed name → isConstantName name = true ∨ b.target ∈ g.arrays) :
    LeavesOut declared computed fixed visits where
  first := by
    intro name hName
    rcases hComputed name hName with ⟨value, hFirst, hValue⟩
    rcases made_first hFirst with ⟨before, v, behind, hSplit, hV, hBefore⟩
    rcases h.visited before v behind hSplit with ⟨hStays, _, hCode⟩
    rcases stmtCode_assigned hV hCode with ⟨_, hRef, hCases⟩
    rcases reference_eq_ok hRef with ⟨b, hFound, rfl⟩
    rw [hStays.data] at hFound
    refine ⟨before, v, behind, value, hSplit, hV, ?_, hValue, hBefore⟩
    rcases hCases with ⟨_, hNone⟩ | ⟨hUnmarked, _⟩
    · exact hNone
    · have hMark := (hMarked name b hFound).mpr hName
      exact absurd ((hStays.special name b hFound).mpr ⟨hMark, hBefore⟩) hUnmarked
  others := by
    intro before v behind name value hSplit hV hLater
    rcases h.visited before v behind hSplit with ⟨hStays, _, hCode⟩
    rcases stmtCode_assigned hV hCode with ⟨_, hRef, hCases⟩
    rcases reference_eq_ok hRef with ⟨b, hFound, rfl⟩
    rw [hStays.data] at hFound
    rcases hCases with ⟨hMark, _⟩ | ⟨_, hConstant, hMode, hStores⟩
    · rcases (hStays.special name b hFound).mp hMark with ⟨hStart, hBefore⟩
      rcases hLater ((hMarked name b hFound).mp hStart) with ⟨p, hP, hSame⟩
      exact absurd hSame (hBefore p hP)
    · refine ⟨?_, _, hRef, hStores⟩
      intro hIs
      have hMade : (name, value) ∈ made visits :=
        mem_flatMap.mpr ⟨v, by simp [hSplit], by simp [hV]⟩
      rcases hFixed name value b hMade hFound hIs with hIsConstant | hArray
      · rw [hConstant] at hIsConstant
        cases hIsConstant
      · have hKept := hStays.arrays b.target hArray
        rw [← Generator.context_arrays] at hKept
        exact absurd (isIndexed_of_array hConstant hKept) (Bool.eq_false_iff.mp hMode)

theorem made_eq {items : List Located}
    (h : visits.map Visit.stmt = items.map Located.stmt) :
    made visits = assignedIn items := by
  have hVisits : made visits = (visits.map Visit.stmt).flatMap assigned := by
    rw [flatMap_map]
    rfl
  rw [hVisits, h, flatMap_map]
  rfl

------------------------------------------------------------
-- Sizes and Declarations
------------------------------------------------------------

/-
  The number of bytes of an array with some first value: two
  for each element of a list, whose length may be given as a
  factor, and the usual number for all other values.
-/
inductive ArraySize (usual : Int64) : Expr → Int64 → Prop where
  | repeated (items : List Expr) (n : Int64) :
      ArraySize usual (.arith .mul (.list items) (.literal n)) (2 * n)
  | listed (items : List Expr) :
      ArraySize usual (.list items) (2 * Int64.ofNat items.length)
  | other {value : Expr}
      (hRepeated : ∀ items n, value ≠ .arith .mul (.list items) (.literal n))
      (hListed : ∀ items, value ≠ .list items) :
      ArraySize usual value usual

theorem bytesOfLength_double {length : Int64}
    (h : bytesOfLength length = .ok size) :
    size = 2 * length := by
  unfold bytesOfLength at h
  split at h
  · cases h
  · cases h
    exact Int64.mul_comm ..

theorem arrayBytes_size (h : arrayBytes usual value = .ok size) :
    ArraySize usual value size := by
  unfold arrayBytes at h
  split at h
  · rw [bytesOfLength_double h]
    exact .repeated _ _
  · rw [bytesOfLength_double h]
    exact .listed _
  · next hRepeated hListed =>
    cases h
    exact .other hRepeated hListed

/-
  What a variable is declared with, given its name and its
  first value. A literal is the value of a constant, or that of
  a word in memory; all other values have the size of an array.
-/
inductive DeclaredBy (usual : Int64) (name : String) :
    Expr → Listing.Directive → Int64 → Prop where
  | constant (n : Int64) (hName : isConstantName name = true) :
      DeclaredBy usual name (.literal n) .equate n
  | word (n : Int64) (hName : isConstantName name = false) :
      DeclaredBy usual name (.literal n) .word n
  | array {value : Expr} {size : Int64}
      (hName : isArrayName name = true)
      (hValue : ∀ n, value ≠ .literal n)
      (hSize : ArraySize usual value size) :
      DeclaredBy usual name value .block size

theorem storageOf_declaredBy {storage : Storage}
    (h : storageOf usual name value = .ok storage)
    (hDeclared : storage.isDeclared = true)
    (target : String) :
    ∃ directive number,
      storage.declaration target = ⟨target, directive, number⟩ ∧
        DeclaredBy usual name value directive number := by
  unfold storageOf at h
  split at h
  · next n =>
    rcases seq h with ⟨_, _, hDone⟩
    cases hName : isConstantName name with
    | true =>
      rw [hName] at hDone
      cases hDone
      exact ⟨_, _, rfl, .constant n hName⟩
    | false =>
      rw [hName] at hDone
      cases hDone
      exact ⟨_, _, rfl, .word n hName⟩
  · next hValue =>
    split at h
    · cases h
    · split at h
      · next hName =>
        rcases seq h with ⟨_, hBytes, hDone⟩
        cases hDone
        exact ⟨_, _, rfl, .array hName hValue (arrayBytes_size hBytes)⟩
      · cases h
        cases hDeclared

/- The local arrays of a function. -/
def Signature.arrays (sig : Signature) : List String :=
  (sig.locals.map Local.name).filter isArrayName

/- A local array whose size is that of some first value. -/
def Signature.SizedFrom
    (usual : Int64)
    (sig : Signature)
    (name : String)
    (value : Expr) : Prop :=
  ∃ l ∈ sig.locals, l.name = name ∧ ArraySize usual value l.size

/- The names that are assigned to at most once in a function. -/
def FixedInFunction (name : String) : Prop :=
  isConstantName name = true ∨ isArrayName name = true

/- Of the places of a function the local arrays are marked. -/
theorem mem_frameSlots_marked {sig : Signature} :
    (name, true) ∈ (frameSlots sig).map (fun s => (s.source, s.special)) ↔ name ∈ sig.arrays := by
  have hItems := congrArg (map fun item => (item.1, item.2.2)) (frameSlots_items sig)
  rw [map_map, map_append, map_append, map_map, map_map] at hItems
  unfold Signature.arrays
  rw [show (frameSlots sig).map (fun s => (s.source, s.special)) = _ from hItems]
  constructor
  · intro hMem
    rcases mem_append.mp hMem with hMem | hReturn
    · rcases mem_append.mp hMem with hLocal | hParam
      · rcases mem_map.mp hLocal with ⟨l, hL, hEq⟩
        rcases Prod.mk.inj hEq with ⟨rfl, hArray⟩
        exact mem_filter.mpr ⟨mem_map_of_mem hL, hArray⟩
      · simp at hParam
    · split at hReturn <;> simp at hReturn
  · intro hArray
    rcases mem_filter.mp hArray with ⟨hMem, hIs⟩
    rcases mem_map.mp hMem with ⟨l, hL, rfl⟩
    refine mem_append_left _ (mem_append_left _ (mem_map.mpr ⟨l, hL, ?_⟩))
    rw [Function.comp_apply, hIs]

theorem addAll_special
    (t : SymbolTable)
    (bindings : List Binding) :
    (t.addAll bindings).special = t.special := by
  unfold SymbolTable.addAll
  induction bindings generalizing t with
  | nil => rfl
  | cons _ _ ih => rw [foldl_cons, ih, SymbolTable.bind_special]

/- A function starts without marks. -/
theorem child_special (t : SymbolTable) : t.child.special = [] := by
  unfold SymbolTable.child SymbolTable.setLabels
  rw [addAll_special]
  exact addAll_special _ _

/- The marks with which the body of a function starts. -/
theorem EnterParts.marks {entry : Generator.Entry}
    (hTidy : Tidy g.table)
    (parts : EnterParts g name params body entry g₁) :
    Marks (.local entry.sig.name)
      ((frameSlots entry.sig).map fun slot => (slot.source, slot.special))
      g₁.context.table := by
  have hStart : Marks (.local entry.sig.name) [] parts.bound.child := by
    refine ⟨(hTidy.bindGlobal parts.label_eq).child, ?_, ?_, ?_⟩
    · rw [child_special]
      simp
    · simp
    · rw [child_special]
      simp
  have hContext : g₁.context.table = entry.table := by
    rw [parts.after]
    rfl
  rw [hContext, parts.table_eq]
  exact (bindSlots_allots parts.complete).marks .onStack hStart

/- In a function, first assignments of its own are left out. -/
theorem enter_leavesOut {g₂ : Generator} {entry : Generator.Entry}
    (hTidy : Tidy g.table)
    (hEnter : g.enter name params body = .ok (entry, g₁))
    (hBody : Emits g₁ body code g₂) :
    ∃ inner, Visits g₁ body code inner g₂ ∧
        inner.map Visit.stmt = (flatten 0 body).map Located.stmt ∧
        LeavesOut entry.sig.arrays (entry.sig.SizedFrom g.usual) FixedInFunction inner := by
  rcases enter_parts hEnter with ⟨parts⟩
  have hRecorded := analyzeFunction_recorded parts.analyzed
  have hMarks := parts.marks hTidy
  have hContext : g₁.context.table = entry.table := by
    rw [parts.after]
    rfl
  rcases hBody.visits hMarks.tidy.distinct with ⟨inner, hVisits, hFollowed, hStmts⟩
  refine ⟨inner, hVisits, hStmts 0, hFollowed.leavesOut ?_ ?_ ?_⟩
  · intro other b hFound
    rw [hMarks.special other b hFound, mem_frameSlots_marked]
  · intro _ hOther
    rcases mem_filter.mp hOther with ⟨hMem, hArray⟩
    rcases mem_map.mp hMem with ⟨l, hL, rfl⟩
    rcases hRecorded.locals.first (l.name, l.size)
      (mem_map_of_mem hL) with ⟨value, hFirst, hSize⟩
    rw [Signature.localSize, if_pos hArray] at hSize
    rw [made_eq (hStmts 0)]
    exact ⟨value, hFirst, l, hL, rfl, arrayBytes_size hSize⟩
  · intro other _ b hMade hFound hFixed
    rcases hFixed with hConstant | hArray
    · exact .inl hConstant
    · rw [made_eq (hStmts 0)] at hMade
      have hOwn : isConstantName other = true ∨
            other ∈ entry.sig.locals.map Local.name ++ entry.sig.params := by
        rw [mem_append, hRecorded.params_eq, ← Signature.record_names]
        rcases hRecorded.locals.names _ hMade with hNot | hLocal
        · rcases hNot with hParam | hConstant
          · exact .inr (.inr hParam)
          · exact .inl hConstant
        · exact .inr (.inl hLocal)
      refine hOwn.imp_right fun hMem => ?_
      have hTarget : b.target ∈ Generator.arrayTargets entry.sig entry.table := by
        refine mem_map.mpr ⟨other, mem_filter.mpr ⟨hMem, hArray⟩, ?_⟩
        rw [SymbolTable.lookup?, ← hContext, hFound]
        rfl
      rw [parts.after]
      exact mem_append_right _ hTarget

/-
  The visit of a function: its code is made from that of its
  body, in which the first assignments to local arrays are
  left out.
-/
def Visit.LeavesOutBody (usual : Int64) (name : String) (params : List String)
    (body : List Stmt) (v : Visit) : Prop :=
  ∃ entry g₁ code inner g₂, v.state.enter name params body = .ok (entry, g₁) ∧
      analyzeFunction usual name params body = .ok entry.sig ∧ Visits g₁ body code inner g₂ ∧
      v.code = entry.wrap body code ∧ inner.map Visit.stmt = (flatten 0 body).map Located.stmt ∧
      LeavesOut entry.sig.arrays (entry.sig.SizedFrom usual) FixedInFunction inner

theorem Followed.leavesOutBody {v : Visit} {line : Int}
    (h : Followed g visits g')
    (hTidy : Tidy g.table)
    (hV : v ∈ visits)
    (hStmt : v.stmt = .define line name params body) :
    v.LeavesOutBody g.usual name params body := by
  rcases append_of_mem hV with ⟨before, behind, hSplit⟩
  rcases h.visited before v behind hSplit with ⟨hStays, _, hCode⟩
  rw [hStmt, stmtCode, located_eq_ok] at hCode
  rcases seq hCode with ⟨⟨entry, g₁⟩, hEnter, h₁⟩
  rcases seq h₁ with ⟨⟨code, g₂⟩, hBody, hDone⟩
  rw [pure_eq_ok, Prod.mk.injEq] at hDone
  rcases enter_parts hEnter with ⟨parts⟩
  have hAnalyzed := parts.analyzed
  rcases enter_leavesOut (hStays.tidy hTidy) hEnter
    (blockCode_emits body hBody) with ⟨inner, hVisits, hStmts, hLeaves⟩
  rw [hStays.usual] at hAnalyzed hLeaves
  exact ⟨entry, g₁, code, inner, g₂, hEnter, hAnalyzed, hVisits, hDone.1.symm, hStmts, hLeaves⟩

------------------------------------------------------------
-- Scripts
------------------------------------------------------------

/- The global variables that are declared with a first value. -/
def Globals.declared (globals : Globals) : List String :=
  (globals.vars.filter fun v => v.storage.isDeclared).map Global.name

/- A variable whose declaration is computed from a value. -/
def Compiled.DeclaresFrom
    (compiled : Compiled)
    (usual : Int64)
    (name : String)
    (value : Expr) : Prop :=
  ∃ b directive number,
    compiled.table.lookup? name = some b ∧
      ⟨b.target, directive, number⟩ ∈ compiled.program.data ∧
      DeclaredBy usual name value directive number

/- The names that are assigned to at most once. -/
def Globals.Fixed (globals : Globals) (name : String) : Prop :=
  isConstantName name = true ∨ ∃ v ∈ globals.vars, v.name = name ∧ v.storage.isArray = true

theorem Globals.mem_declared {globals : Globals} :
    (name, true) ∈ (globals.vars.map fun v => (v.name, v.storage.isDeclared)) ↔
      name ∈ globals.declared := by
  unfold Globals.declared
  simp only [mem_map, Prod.mk.injEq, mem_filter]
  constructor
  · rintro ⟨v, hV, hName, hDeclared⟩
    exact ⟨v, ⟨hV, hDeclared⟩, hName⟩
  · rintro ⟨v, ⟨hV, hDeclared⟩, hName⟩
    exact ⟨v, hV, hName, hDeclared⟩

/-
  Of every script that compiles, the walk through the top
  level makes its code, and leaves out exactly the first
  assignments to constants, known values and arrays, from which
  their declarations were computed. The same holds in every
  function of its local arrays. All other assignments to
  variables store to them once, with their last instruction,
  and constants and arrays have no other assignment.
-/
theorem generate_leavesOut {options : Options} {stmts : List Stmt}
    {compiled : Compiled}
    (h : generate options .empty stmts = .ok compiled) :
    ∃ globals started code visits final,
      analyzeGlobals options.usual stmts = .ok globals ∧
        Visits started stmts code visits final ∧
        compiled.program.code =
          mark compiled.program.entry :: code
            ++ (if endsWithExit stmts then [] else [.plain .stop]) ∧
        visits.map Visit.stmt = (flatten 0 stmts).map Located.stmt ∧
        LeavesOut globals.declared
          (compiled.DeclaresFrom options.usual) globals.Fixed visits ∧
        ∀ v ∈ visits, ∀ line name params body,
          v.stmt = .define line name params body →
            v.LeavesOutBody options.usual name params body := by
  rcases generate_allocated h with ⟨parts, hAllocated⟩
  have hMarks := allocateGlobals_marks hAllocated
  have hDeclared := ((allocateGlobals_allots hAllocated).found .global).2
  have hRecorded := analyzeGlobals_recorded parts.analyzed
  have hLabel := stays_label isStem_landing parts.labelled
  have hDistinct : Distinct parts.started.context.table.data := hLabel.data ▸ hMarks.tidy.distinct
  rcases parts.emits.visits hDistinct with ⟨visits, hVisits, hInner, hStmts⟩
  have hFollowed := hInner.after hLabel
  have hProgram := parts.program
  have hTable : compiled.table.data = parts.bound.data := by
    rw [parts.table_eq, ← Generator.context_table hFollowed.stays.function]
    exact hFollowed.stays.data
  refine ⟨parts.globals, parts.started, parts.code, visits, parts.final,
    parts.analyzed, hVisits, ?_, hStmts 0, hFollowed.leavesOut ?_ ?_ ?_, ?_⟩
  · rw [hProgram]
  · intro name b hFound
    exact (hMarks.special name b hFound).trans Globals.mem_declared
  · intro _ hName
    rcases mem_map.mp hName with ⟨v, hV, rfl⟩
    rcases mem_filter.mp hV with ⟨hMem, hMarked⟩
    rcases hRecorded.first (v.name, v.storage)
      (mem_map_of_mem hMem) with ⟨value, hFirst, hStorage⟩
    rcases hDeclared v hMem with ⟨b, hFound, hDecl⟩
    rcases storageOf_declaredBy hStorage hMarked b.target with ⟨_, _, hSame, hBy⟩
    rw [made_eq (hStmts 0)]
    refine ⟨value, hFirst, b, _, _, ?_, hSame ▸ hDecl, hBy⟩
    rw [SymbolTable.lookup?, hTable]
    exact hFound
  · intro name _ b _ hFound hFixed
    refine hFixed.imp_right ?_
    rintro ⟨v, hV, hName, hArray⟩
    refine mem_map.mpr ⟨v, mem_filter.mpr ⟨hV, hArray⟩, ?_⟩
    rw [SymbolTable.lookup?, hName]
    change parts.bound.data.find name = some b at hFound
    rw [hFound]
    rfl
  · intro _ hV _ _ _ _ hStmt
    exact hFollowed.leavesOutBody hMarks.tidy hV hStmt

/- Declared variables at the top, in a loop and in a function. -/
def declaring : String :=
  "N = 3\ni = 0\nv_ = [0] * 4\n" ++ "def f(b_):\n    w_ = [1, 2]\n    k = 5\n    b_[0] = k\n"
    ++ "while i < N:\n    j = 7\n    j = i\n    i = i + 1\n" ++ "f(v_)\nprint(v_[0])\n"

/-
  Of its four variables at the top level all are declared with
  a first value, also the one in the loop.
-/
theorem generate_leavesOut_declaring :
    ∃ stmts compiled visits, ∃ globals : Globals,
      Script.parseSource declaring = .ok stmts ∧
        generate ⟨0, ""⟩ .empty stmts = .ok compiled ∧
        globals.declared = ["N", "i", "v_", "j"] ∧
        visits.map Visit.stmt = (flatten 0 stmts).map Located.stmt ∧
        LeavesOut globals.declared (compiled.DeclaresFrom 200) globals.Fixed visits := by
  have hAccepted : ((Script.parseSource declaring).toOption.any fun stmts =>
        (generate ⟨0, ""⟩ .empty stmts).isOk &&
          (analyzeGlobals 200 stmts).toOption.any fun globals =>
            globals.declared = ["N", "i", "v_", "j"]) = true := by
    decide +kernel
  rcases Result.any_eq_true.mp hAccepted with ⟨stmts, hParsed, hRest⟩
  rw [Bool.and_eq_true] at hRest
  rcases isOk_eq_true.mp hRest.1 with ⟨compiled, hCompiled⟩
  rcases Result.any_eq_true.mp hRest.2 with ⟨globals, hGlobals, hEq⟩
  rcases generate_leavesOut hCompiled with
    ⟨_, _, _, visits, _, hFound, _, _, hStmts, hLeaves, _⟩
  cases hGlobals.symm.trans hFound
  exact ⟨stmts, compiled, visits, globals, hParsed, hCompiled,
    of_decide_eq_true hEq, hStmts, hLeaves⟩

end Compile

end Pep9
