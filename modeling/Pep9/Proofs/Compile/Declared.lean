import Pep9.Proofs.Compile.Recorded
import Pep9.Proofs.Compile.Whole
import Pep9.Proofs.Script.Interpreter

/-
  What the variables of a script are declared with. The first
  assignment to a variable decides on its storage.

  Key theorems: `analyzeGlobals_surveyed`,
  `Surveyed.declared`.
-/

namespace Pep9

open List Result
open Script (Expr Stmt)

variable {g globals : Globals} {seen : List (String × Expr)} {stmts : List Stmt}
  {v : Global}

namespace Compile

mutual

theorem assigned_flattenStmt
    (outer : Int)
    (inLoop : Bool)
    (stmt : Stmt) :
    assignedIn (flattenStmt outer stmt) =
      (stmt.assignments inLoop).map fun a => (a.name, a.value) := by
  cases stmt with
  | assign _ first => cases first <;> rfl
  | cond line test body orElse =>
    rw [flattenStmt, Stmt.assignments, assignedIn_append, map_append,
      assigned_flatten (innerLine outer line) inLoop body,
      assigned_flatten (innerLine outer line) inLoop orElse]
  | loop line _ body | each line _ _ body =>
    rw [flattenStmt, Stmt.assignments]
    exact assigned_flatten (innerLine outer line) true body
  | _ => rfl

theorem assigned_flatten
    (outer : Int)
    (inLoop : Bool) :
    ∀ stmts : List Stmt, assignedIn (flatten outer stmts) =
        (Script.assignments inLoop stmts).map fun a => (a.name, a.value)
  | [] => rfl
  | stmt :: rest => by
      rw [flatten, Script.assignments, assignedIn_append,
        map_append, assigned_flattenStmt outer inLoop stmt, assigned_flatten outer inLoop rest]

end

mutual

/- The statements of blocks are as plain as the blocks. -/
theorem isScalar_flattenStmt (outer : Int) (stmt : Stmt) (h : stmt.isScalar = true) :
    ∀ s ∈ flattenStmt outer stmt, s.stmt.isScalar = true := by
  cases stmt with
  | cond line test body orElse =>
    rw [Stmt.isScalar, Bool.and_eq_true, Bool.and_eq_true] at h
    rw [flattenStmt, forall_mem_append]
    exact ⟨isScalar_flatten _ body h.1.2, isScalar_flatten _ orElse h.2⟩
  | loop line test body | each line target source body =>
    rw [Stmt.isScalar, Bool.and_eq_true] at h
    exact isScalar_flatten _ body h.2
  | _ => exact forall_mem_singleton.mpr h

theorem isScalar_flatten (outer : Int) :
    ∀ stmts : List Stmt, Script.isScalar stmts = true →
      ∀ s ∈ flatten outer stmts, s.stmt.isScalar = true
  | [], _ => by
      intro _ hS
      cases hS
  | stmt :: rest, h => by
      rw [Script.isScalar, Bool.and_eq_true] at h
      rw [flatten, forall_mem_append]
      exact ⟨isScalar_flattenStmt outer stmt h.1, isScalar_flatten outer rest h.2⟩

end

/-
  The variables of a script without arrays: each has the
  storage of its first assignment.
-/
structure Surveyed (usual : Int64) (seen : List (String × Expr)) (g : Globals) : Prop where
  slicing : g.slicing = []
  scalar : ∀ v ∈ g.vars, isArrayName v.name = false
  recorded : Recorded (storageOf usual) (fun _ => False) seen g.record

variable {usual : Int64}

theorem Surveyed.first
    (h : Surveyed usual seen g)
    (hV : v ∈ g.vars) :
    ∃ value, firstValue? seen v.name = some value ∧ storageOf usual v.name value = .ok v.storage :=
  h.recorded.first (v.name, v.storage) (mem_map_of_mem hV)

theorem Surveyed.add {g' : Globals} {stmt : Stmt}
    (h : Surveyed usual seen g)
    (hScalar : stmt.isScalar = true)
    (hAdd : g.add usual stmt = .ok g') :
    Surveyed usual (seen ++ assigned stmt) g' := by
  have hRecorded := Globals.add_recorded h.recorded hAdd
  unfold Globals.add at hAdd
  split at hAdd
  · rcases seq hAdd with ⟨_, _, h₁⟩
    split at h₁
    · simp [Stmt.isScalar, Script.Place.toExpr, Expr.isScalar] at hScalar
    · split at h₁
      · cases h₁
        exact ⟨h.slicing, h.scalar, hRecorded⟩
      · rcases seq h₁ with ⟨_, _, hDone⟩
        cases hDone
        refine ⟨h.slicing, ?_, hRecorded⟩
        intro v hV
        rcases mem_append.mp hV with hV | hV
        · exact h.scalar v hV
        · rw [mem_singleton.mp hV]
          simp only [Stmt.isScalar, all_cons, Script.Place.toExpr,
            Expr.isScalar, Bool.and_eq_true, Bool.not_eq_true'] at hScalar
          exact hScalar.1.1
  · cases hAdd
    exact ⟨h.slicing, h.scalar, hRecorded⟩

/- The variables of a script without arrays. -/
theorem analyzeGlobals_surveyed
    (hScalar : Script.isScalar stmts = true)
    (h : analyzeGlobals usual stmts = .ok globals) :
    Surveyed usual
      ((Script.assignments false stmts).map fun a => (a.name, a.value))
      globals := by
  have hStart : Surveyed usual [] .empty := ⟨rfl, by simp [Globals.empty], .nil⟩
  rw [← assigned_flatten 0 false stmts]
  refine foldlM_assigned (Surveyed usual) hStart ?_ h
  intro _ _ item hItem _ hG hAdd
  exact hG.add (isScalar_flatten 0 stmts hScalar item hItem) (located_eq_ok.mp hAdd)

/- The word with which a variable starts. -/
def Storage.word : Storage → UInt16
  | constant v | value v => Script.wordOf v
  | _ => 0

/-
  The storage of a variable tells its declared value. It is
  uninitialized exactly if the first value is no literal.
-/
theorem Surveyed.declared
    (h : Surveyed usual ((Script.assignments false stmts).map fun a => (a.name, a.value)) globals)
    (hV : v ∈ globals.vars) :
    Script.declared stmts v.name = v.storage.word ∧
      v.storage.isArray = false ∧ (v.storage ≠ .uninitialized →
        ∃ a, Script.firstAssignment? stmts v.name = some a ∧ a.value.literal?.isSome = true) := by
  have hArray := h.scalar v hV
  rcases h.first hV with ⟨value, hFound, hStorage⟩
  unfold firstValue? at hFound
  rw [find?_map, Option.map_map, Option.map_eq_some_iff] at hFound
  rcases hFound with ⟨a, hFirst, hEq⟩
  replace hEq : a.value = value := hEq
  rw [← hEq] at hStorage
  replace hFirst : Script.firstAssignment? stmts v.name = some a := hFirst
  have hDeclared : Script.declared stmts v.name =
      a.value.literal?.elim 0 Script.wordOf := by
    unfold Script.declared
    rw [hFirst, Option.bind_some]
    cases a.value.literal? <;> rfl
  rw [hDeclared]
  unfold storageOf at hStorage
  split at hStorage
  · next number hLiteral =>
    rcases seq hStorage with ⟨_, _, hDone⟩
    have hSome : a.value.literal? = some number := by
      rw [hLiteral]
      rfl
    rw [hSome]
    have hExists : ∃ a, Script.firstAssignment? stmts v.name = some a ∧
        a.value.literal?.isSome = true := ⟨a, hFirst, by rw [hSome]; rfl⟩
    rw [← Except.ok.inj hDone]
    by_cases hConstant : isConstantName v.name = true
    · rw [if_pos hConstant]
      exact ⟨rfl, rfl, fun _ => hExists⟩
    · rw [if_neg hConstant]
      exact ⟨rfl, rfl, fun _ => hExists⟩
  · next hOther =>
    have hNone : a.value.literal? = none := by
      unfold Script.Expr.literal?
      split
      · next number hLiteral => exact absurd hLiteral (hOther number)
      · rfl
    rw [if_neg (Bool.eq_false_iff.mp hArray)] at hStorage
    split at hStorage
    · cases hStorage
    · rw [hNone, ← Except.ok.inj hStorage]
      exact ⟨rfl, rfl, fun h => absurd rfl h⟩

end Compile

end Pep9
