import Pep9.Proofs.Compile.Nameless
import Pep9.Proofs.Compile.Reading
import Pep9.Proofs.Compile.Visibility

/-
  Names that are resolved. A script compiles only if every name
  that it reads is visible where it is read, and the name that
  is reported as not defined is one that is read, and is not
  visible, at the first such place in the text. What an
  assignment that is left out would read does not count.

  Key theorems: `Judged.next`, `assignName_judged`,
  `blockCode_judged`, `names_resolved`.
-/

namespace Pep9

open List
open Script (Expr Stmt Place IsIdentifier NamedBlock parseSource)

namespace Script

variable {P : String → Prop} {name : String}

mutual

/- The names among the atoms of an expression are its names. -/
theorem named_atom
    (e : Expr)
    (h : e.Named P)
    (hName : .name name ∈ e.atoms) :
    P name := by
  cases e with
  | literal | string => simp [Expr.atoms] at hName
  | name =>
    simp only [Expr.atoms, mem_singleton, Expr.name.injEq] at hName
    exact hName ▸ h
  | list elements =>
    simp only [Expr.atoms, mem_cons, reduceCtorEq, false_or] at hName
    exact namedAll_atom elements h hName
  | unary _ operand => exact named_atom operand h hName
  | call _ args => exact namedAll_atom args h.2 hName
  | compare left chain =>
    rcases mem_append.mp hName with hName | hName
    · exact named_atom left h.1 hName
    · exact namedChain_atom chain h.2 hName
  | arith op left right | logic op left right | index left right =>
    rcases mem_append.mp hName with hName | hName
    · exact named_atom left h.1 hName
    · exact named_atom right h.2 hName

theorem namedChain_atom
    (chain : Chain)
    (h : chain.Named P)
    (hName : .name name ∈ chain.atoms) :
    P name := by
  cases chain with
  | last _ right => exact named_atom right h hName
  | link _ right rest =>
    rcases mem_append.mp hName with hName | hName
    · exact named_atom right h.1 hName
    · exact namedChain_atom rest h.2 hName

theorem namedAll_atom
    (es : List Expr)
    (h : NamedAll P es)
    (hName : .name name ∈ atomsOf es) :
    P name := by
  cases es with
  | nil => cases hName
  | cons e rest =>
    rcases mem_append.mp hName with hName | hName
    · exact named_atom e h.1 hName
    · exact namedAll_atom rest h.2 hName

end

end Script

namespace Compile

/-
  A statement where it stands: the function it is in, if any,
  and what that function or the top level assigned to before.
-/
structure Spot extends Located where
  home : Option Definition
  earlier : List String

mutual

/- A statement and those in its blocks, in the order of the text. -/
def stmtSpots (home : Option Definition) (earlier : List String) (outer : Int) : Stmt → List Spot
  | .cond line test body orElse =>
    ⟨⟨innerLine outer line, .cond line test body orElse⟩, home, earlier⟩
      :: (spots home earlier (innerLine outer line) body
        ++ spots home (earlier ++ assignedNames body) (innerLine outer line) orElse)
  | .loop line test body =>
    ⟨⟨innerLine outer line, .loop line test body⟩, home, earlier⟩
      :: spots home earlier (innerLine outer line) body
  | .each line target source body =>
    ⟨⟨innerLine outer line, .each line target source body⟩, home, earlier⟩
      :: spots home earlier (innerLine outer line) body
  | .define line name params body =>
    ⟨⟨innerLine outer line, .define line name params body⟩, home, earlier⟩
      :: spots (some ⟨name, params, body⟩) [] (innerLine outer line) body
  | stmt => [⟨⟨innerLine outer stmt.line, stmt⟩, home, earlier⟩]

/- The statements of a block, and those in their blocks. -/
def spots (home : Option Definition) (earlier : List String) (outer : Int) : List Stmt → List Spot
  | [] => []
  | stmt :: rest =>
    stmtSpots home earlier outer stmt ++ spots home (earlier ++ assignedNames [stmt]) outer rest

end

/- What a statement reads itself, without its blocks. -/
def headAtoms : Stmt → List Expr
  | .assign _ first others value => (first :: others).flatMap (Place.atoms value)
  | .augment _ target _ value => target.toExpr.atoms ++ value.atoms
  | .expr _ value => value.atoms
  | .ret _ value => value.toList.flatMap Expr.atoms
  | .cond _ test _ _ => test.atoms
  | .loop _ test _ => test.atoms
  | .each _ _ source _ => source.atoms
  | _ => []

variable {name : String} {s : Spot} {α : Type}

theorem named_placeAtom {P : String → Prop} {place : Place} {value : Expr}
    (hPlace : place.Named P)
    (hValue : value.Named P)
    (h : .name name ∈ place.atoms value) :
    P name := by
  cases place with
  | name => exact Script.named_atom value hValue h
  | element base position =>
    simp only [Place.atoms, mem_append] at h
    rcases h with h | h | h
    · exact Script.named_atom base hPlace.1 h
    · exact Script.named_atom value hValue h
    · exact Script.named_atom position hPlace.2 h

theorem named_headAtom {P : String → Prop} {stmt : Stmt}
    (hNamed : stmt.Named P)
    (h : .name name ∈ headAtoms stmt) :
    P name := by
  cases stmt with
  | assign =>
    rcases mem_flatMap.mp h with ⟨place, hMem, hName⟩
    refine named_placeAtom ?_ hNamed.2.2 hName
    rcases mem_cons.mp hMem with rfl | hMem
    · exact hNamed.1
    · exact hNamed.2.1 place hMem
  | augment _ target _ value =>
    rcases mem_append.mp h with hName | hName
    · refine Script.named_atom target.toExpr ?_ hName
      cases target with
      | name | element => exact hNamed.1
    · exact Script.named_atom value hNamed.2 hName
  | expr _ value => exact Script.named_atom value hNamed h
  | ret =>
    rcases mem_flatMap.mp h with ⟨e, hMem, hName⟩
    exact Script.named_atom e (hNamed e (Option.mem_toList.mp hMem)) hName
  | cond _ test | loop _ test => exact Script.named_atom test hNamed.1 h
  | each _ _ source => exact Script.named_atom source hNamed.2.1 h
  | define | pass | breakLoop | continueLoop => cases h

namespace Spot

/-
  Whether the value is not computed: it is the first one of an
  array that is no parameter.
-/
def skips (s : Spot) : Bool :=
  match s.stmt with
  | .assign _ (.name id) _ _ =>
    isArrayName id && !s.earlier.contains id && s.home.all fun d => !d.params.contains id
  | _ => false

/- What is computed with at a spot. -/
def atoms (s : Spot) : List Expr :=
  if s.skips then [] else headAtoms s.stmt

/- The names that are read at a spot. -/
def reads (s : Spot) : List String := s.atoms.filterMap nameOf?

/- All names that are read are visible. -/
def Resolved (script : List Stmt) (s : Spot) : Prop :=
  ∀ name ∈ s.reads, Visible script s.home name

/- A name is read that is not visible, and is not assigned to. -/
def Misses (script : List Stmt) (s : Spot) (name : String) : Prop :=
  name ∈ s.reads ∧ ¬ Visible script s.home name ∧ name ∉ targetNames [s.stmt]

theorem mem_reads : name ∈ s.reads ↔ .name name ∈ s.atoms := by
  unfold reads
  rw [mem_filterMap]
  constructor
  · rintro ⟨e, hE, hName⟩
    cases e <;> cases hName
    exact hE
  · exact fun hName => ⟨_, hName, rfl⟩

theorem atoms_subset {e : Expr} (h : e ∈ s.atoms) : e ∈ headAtoms s.stmt := by
  unfold atoms at h
  split at h
  · cases h
  · exact h

theorem named
    (hNamed : s.stmt.Named IsIdentifier)
    (h : .name name ∈ s.atoms) :
    IsIdentifier name := named_headAtom hNamed (atoms_subset h)

end Spot

------------------------------------------------------------
-- Judgements
------------------------------------------------------------

/-
  A result for some spots in order. It is there only if all of
  them are resolved. A name that is reported as not defined is
  missed at one of them, on the line of the report, and those
  before it are resolved.
-/
def Judged {α : Type} (script : List Stmt) (spots : List Spot) : Except Error α → Prop
  | .ok _ => ∀ s ∈ spots, s.Resolved script
  | .error e =>
    ∀ name, e.cause = .undefinedName name → ∃ before s behind, spots = before ++ s :: behind ∧
          (∀ s ∈ before, s.Resolved script) ∧ s.line = e.line ∧ s.Misses script name

theorem located_zero (x : Except Error α) : located 0 x = x := by
  cases x with
  | ok => rfl
  | error e =>
    change Except.error (e.atLine 0) = .error e
    unfold Error.atLine
    split
    · next hLine =>
      rw [← hLine.1]
    · rfl

/- The line of the inner statement counts, if it has one. -/
theorem located_located
    (outer line : Int)
    (x : Except Error α) :
    located outer (located line x) = located (innerLine outer line) x := by
  cases x with
  | ok => rfl
  | error e =>
    change Except.error ((e.atLine line).atLine outer) = .error (e.atLine (innerLine outer line))
    unfold Error.atLine innerLine
    by_cases hOpen : e.line = 0 ∧ e.cause.hasLine = true
    · by_cases hLine : line = 0 <;> simp [hOpen, hLine]
    · simp [hOpen]

namespace Judged

variable {β : Type} {script : List Stmt} {p q : List Spot} {x : Except Error α} {line : Int}

theorem done {a : α} : Judged script [] (.ok a : Except Error α) := by
  simp [Judged]

/- Other errors tell nothing about names. -/
theorem fails {e : Error}
    (h : ∀ name, e.cause ≠ .undefinedName name) :
    Judged script p (located line (.error e : Except Error α)) := by
  intro name hCause
  rw [Nameless.cause_atLine] at hCause
  exact absurd hCause (h name)

theorem next {f : α → Except Error β}
    (hX : Judged script p (located line x))
    (hF : ∀ a, x = .ok a → Judged script q (located line (f a))) :
    Judged script (p ++ q) (located line (x >>= f)) := by
  cases x with
  | error =>
    intro name hCause
    rcases hX name hCause with ⟨before, s, behind, rfl, hBefore, hS⟩
    exact ⟨before, s, behind ++ q, by simp, hBefore, hS⟩
  | ok a =>
    have hNext := hF a rfl
    change Judged script (p ++ q) (located line (f a))
    cases hResult : located line (f a) with
    | error =>
      rw [hResult] at hNext
      intro name hCause
      rcases hNext name hCause with ⟨before, s, behind, rfl, hBefore, hS⟩
      refine ⟨p ++ before, s, behind, by simp, ?_, hS⟩
      exact forall_mem_append.mpr ⟨hX, hBefore⟩
    | ok =>
      rw [hResult] at hNext
      exact forall_mem_append.mpr ⟨hX, hNext⟩

/- A first part that looks for no variables. -/
theorem after {f : α → Except Error β}
    (hX : Nameless x)
    (hF : ∀ a, x = .ok a → Judged script q (located line (f a))) :
    Judged script q (located line (x >>= f)) := by
  refine next (p := []) ?_ hF
  cases x with
  | error => exact fails hX
  | ok => exact done

theorem ends {f : α → Except Error β}
    (hX : Judged script p (located line x))
    (hF : ∀ a, ∃ b, f a = .ok b) :
    Judged script p (located line (x >>= f)) := by
  rw [← append_nil p]
  refine hX.next fun a _ => ?_
  rcases hF a with ⟨_, hB⟩
  rw [hB]
  exact done

/- A statement that reads nothing. -/
theorem silent
    (hNone : s.atoms = [])
    (hX : Nameless x) :
    Judged script [s] (located line x) := by
  cases x with
  | error => exact fails hX
  | ok =>
    intro _ hS _ hName
    rw [mem_singleton.mp hS, Spot.mem_reads, hNone] at hName
    cases hName

/- What depends on the names of a spot. -/
theorem of_reads {g : Generator} {before : List Stmt}
    (hSees : Sees script s.home before g)
    (hNamed : s.stmt.Named IsIdentifier)
    (hTarget : ∀ name ∈ targetNames [s.stmt], Visible script s.home name)
    (hReads : Reads (fun _ => True) g.context s.atoms (fun _ => True) x) :
    Judged script [s] (located s.line x) := by
  cases x with
  | ok =>
    intro _ hS name hName
    rw [mem_singleton.mp hS] at hName ⊢
    rw [Spot.mem_reads] at hName
    exact (hSees.bound name (Spot.named hNamed hName)).mp (hReads.1 name hName)
  | error =>
    intro name hCause
    rw [Nameless.cause_atLine] at hCause
    rcases hReads.2 name hCause with ⟨hName, hNone⟩
    have hUnbound : ¬ g.context.table.Binds name := by
      unfold SymbolTable.Binds
      simp [hNone]
    have hHidden : ¬ Visible script s.home name :=
      mt (hSees.bound name (Spot.named hNamed hName)).mpr hUnbound
    refine ⟨[], s, [], rfl, by simp, ?_, Spot.mem_reads.mpr hName, hHidden, ?_⟩
    · simp [Error.atLine, hReads.1, hCause, Cause.hasLine]
    · exact fun hMem => hHidden (hTarget name hMem)

end Judged

/- A statement without a variable as its target reads all it says. -/
theorem Spot.atoms_of_unassigned (h : assigned s.stmt = []) :
    s.atoms = headAtoms s.stmt := by
  have hSkips : s.skips = false := by
    unfold Spot.skips
    split
    · next hStmt =>
      rw [hStmt] at h
      cases h
    · rfl
  unfold Spot.atoms
  simp [hSkips]

theorem Judged.of_head {script before : List Stmt} {x : Except Error α}
    {g : Generator}
    (hSees : Sees script s.home before g)
    (hNamed : s.stmt.Named IsIdentifier)
    (hNone : assigned s.stmt = [])
    (hReads : Reads (fun _ => True) g.context (headAtoms s.stmt) (fun _ => True) x) :
    Judged script [s] (located s.line x) := by
  rw [← Spot.atoms_of_unassigned hNone] at hReads
  refine .of_reads hSees hNamed ?_ hReads
  simp [targetNames, hNone]

/- A name that is bound need not be counted. -/
theorem Reads.forget {P : Int64 → Prop} {ctx : Context} {p : List Expr}
    {Q : α → Prop} {x : Except Error α} {id : String}
    (h : Reads P ctx (p ++ [.name id]) Q x)
    (hBound : ctx.table.Binds id) :
    Reads (fun _ => True) ctx p (fun _ => True) x := by
  cases x with
  | ok =>
    refine ⟨fun name hName => ?_, fun _ => trivial⟩
    exact h.1 name (mem_append_left _ hName)
  | error =>
    refine ⟨h.1, fun name hCause => ?_⟩
    rcases h.2 name hCause with ⟨hMem, hNone⟩
    refine ⟨?_, hNone⟩
    rcases mem_append.mp hMem with hMem | hMem
    · exact hMem
    · simp only [mem_singleton, Expr.name.injEq] at hMem
      subst hMem
      simp [SymbolTable.Binds, hNone] at hBound

/- Calls may pass any numbers. -/
theorem passes_always (ctx : Context) :
    ∀ sig ∈ ctx.functions, Passes (fun _ => True) sig :=
  fun _ _ _ _ => ⟨trivial, trivial⟩

section Assignments

variable {script before behind : List Stmt} {g : Generator}
  {line : Int} {id : String} {value : Expr}

/- A first assignment has the first value. -/
theorem firstValue?_opened {stmts : List Stmt} {stmt : Stmt}
    (hBody : opened stmts = before ++ stmt :: behind)
    (hStmt : assigned stmt = [(id, value)])
    (hNew : id ∉ targetNames before) :
    firstValue? ((opened stmts).flatMap assigned) id = some value := by
  have hFirst := firstValue?_new (not_mem_targetNames.mp hNew) value
  rw [hBody, flatMap_append, flatMap_cons, hStmt, ← append_assoc]
  exact firstValue?_append hFirst _

/- What is assigned to is visible, unless it is a constant of a function. -/
theorem visible_of_assigned {home : Option Definition}
    (h : id ∈ assignedNames (scopeBody script home))
    (hConstant : isConstantName id = false) :
    Visible script home id := by
  cases home with
  | none => exact h
  | some => exact .inr (.inl ⟨h, hConstant⟩)

variable (hBody : opened (scopeBody script s.home) = before ++ s.stmt :: behind)
  (hEarlier : s.earlier = targetNames before)

include hBody hEarlier

section

variable (hStmt : s.stmt = .assign line (.name id) [] value)
include hStmt

/- An assignment that is left out reads no names. -/
theorem Spot.atoms_of_elided
    (hElided : Elided script s.home id)
    (hNew : id ∉ targetNames before)
    (name : String) :
    .name name ∉ s.atoms := by
  have hArray : isArrayName id = true → (∀ d ∈ s.home, id ∉ d.params) → .name name ∉ s.atoms := by
    intro hIs hParams
    have hSkips : s.skips = true := by
      unfold Spot.skips
      rw [hStmt, hEarlier]
      simpa [hIs, hNew, Option.all_eq_true] using hParams
    unfold Spot.atoms
    simp [hSkips]
  cases hHome : s.home with
  | none =>
    rw [hHome] at hElided hBody
    rcases hElided with ⟨_, hFirst, hKind⟩
    rcases hKind with ⟨_, hLiteral⟩ | hIs
    · have hValue := firstValue?_opened hBody (by rw [hStmt]; rfl) hNew
      rw [show scopeBody script none = script from rfl, hFirst, Option.some.injEq] at hValue
      intro hName
      have hHead := Spot.atoms_subset hName
      rw [hStmt, ← hValue, hLiteral] at hHead
      simp [headAtoms, Place.atoms, Expr.atoms] at hHead
    · exact hArray hIs (by simp [hHome])
  | some =>
    rw [hHome] at hElided
    refine hArray hElided.1 ?_
    intro _ hD hParam
    rw [hHome, Option.mem_some_iff] at hD
    exact hElided.2.2 (.inl (hD ▸ hParam))

/- What is skipped is left out, if it is no constant. -/
theorem Spot.elided_of_skips
    (hConstant : isConstantName id = false)
    (hSkips : s.skips = true) :
    Elided script s.home id ∧ id ∉ targetNames before := by
  unfold Spot.skips at hSkips
  rw [hStmt, hEarlier] at hSkips
  simp only [Bool.and_eq_true, Bool.not_eq_true', contains_eq_mem,
    decide_eq_false_iff_not, Option.all_eq_true] at hSkips
  rcases hSkips with ⟨⟨hArray, hNew⟩, hParams⟩
  refine ⟨?_, hNew⟩
  have hFirst := firstValue?_opened hBody (by rw [hStmt]; rfl) hNew
  cases hHome : s.home with
  | none =>
    rw [hHome] at hFirst
    exact ⟨value, hFirst, .inr hArray⟩
  | some d =>
    rw [hHome] at hFirst
    refine ⟨hArray, mem_map_of_mem (mem_of_firstValue? hFirst), ?_⟩
    rintro (hParam | hIs)
    · exact hParams d hHome hParam
    · rw [hConstant] at hIs
      cases hIs

end

variable (hSees : Sees script s.home before g) (hNamed : s.stmt.Named IsIdentifier)

include hSees hNamed

/- The target of an assignment is never reported. -/
theorem assignName_judged (hStmt : s.stmt = .assign line (.name id) [] value) :
    Judged script [s] (located s.line (g.assignName id value)) := by
  have hId : IsIdentifier id := by
    rw [hStmt] at hNamed
    exact hNamed.1
  have hAssigned : id ∈ assignedNames (scopeBody script s.home) := by
    unfold assignedNames
    rw [hBody, targetNames_append, hStmt]
    simp [targetNames, assigned]
  have hVisible := visible_of_assigned hAssigned
  unfold Generator.assignName
  cases hRef : g.context.reference id with
  | error =>
    dsimp only
    by_cases hConstant : isConstantName id = true
    · rw [if_pos hConstant]
      exact .fails (by rintro _ ⟨⟩)
    · -- The analysis of the scope has bound the target.
      rw [Bool.not_eq_true] at hConstant
      have hBinds := (hSees.bound id hId).mpr (hVisible hConstant)
      rcases Option.isSome_iff_exists.mp hBinds with ⟨_, hFound⟩
      simp [Context.reference, hFound] at hRef
  | ok =>
    rcases reference_eq_ok hRef with ⟨b, hFound, rfl⟩
    have hMarked := hSees.marked id b hFound
    dsimp only
    by_cases hSpecial : g.context.table.isSpecial b.target = true
    · rw [if_pos hSpecial]
      rcases hMarked.mp (contains_iff_mem.mp hSpecial) with ⟨hElided, hNew⟩
      intro _ hS name hName
      rw [mem_singleton.mp hS, Spot.mem_reads] at hName
      exact absurd hName (Spot.atoms_of_elided hBody hEarlier hStmt hElided hNew name)
    · rw [if_neg hSpecial]
      by_cases hConstant : isConstantName id = true
      · rw [if_pos hConstant]
        exact .fails (by rintro _ ⟨⟩)
      · rw [if_neg hConstant]
        rw [Bool.not_eq_true] at hConstant
        by_cases hIndexed : (g.context.mode id b).isIndexed = true
        · rw [if_pos hIndexed]
          exact .fails (by rintro _ ⟨⟩)
        · rw [if_neg hIndexed]
          have hSkips : s.skips = false := by
            by_contra hSkips
            rw [Bool.not_eq_false] at hSkips
            have hMark := hMarked.mpr (Spot.elided_of_skips hBody hEarlier hStmt hConstant hSkips)
            exact hSpecial (contains_iff_mem.mpr hMark)
          have hAtoms : s.atoms = value.atoms := by
            unfold Spot.atoms
            rw [hSkips, hStmt]
            simp [headAtoms, Place.atoms]
          have hReads := storeCode_reads (passes_always g.context) id
            ⟨b.target, g.context.mode id b⟩ value
          rw [← hAtoms] at hReads
          refine .of_reads hSees hNamed ?_ (hReads.map fun _ _ => trivial)
          intro name hName
          have hSame : name = id := by
            simpa [targetNames, hStmt, assigned] using hName
          exact hSame ▸ hVisible hConstant

theorem assignCode_judged {first : Place} {others : List Place}
    (hStmt : s.stmt = .assign line first others value) :
    Judged script [s] (located s.line (g.assignCode first others value)) := by
  refine .after (checkTargets_bare others).nameless fun _ hSingle => ?_
  have hOthers : others = [] := by
    unfold checkTargets at hSingle
    split at hSingle
    · next hEmpty => exact List.isEmpty_iff.mp hEmpty
    · cases hSingle
  subst hOthers
  cases first with
  | name => exact assignName_judged hBody hEarlier hSees hNamed hStmt
  | element base position =>
    refine .of_head hSees hNamed (by rw [hStmt]; rfl) ?_
    rw [hStmt, headAtoms, flatMap_singleton]
    exact (assignElement_reads (passes_always _) base position value).map fun _ _ => trivial

end Assignments

------------------------------------------------------------
-- Statements
------------------------------------------------------------

section Statements

variable {script before behind : List Stmt} {home : Option Definition} {g : Generator}

theorem returnCode_judged {line : Int} {value : Option Expr}
    (hSees : Sees script s.home before g)
    (hStmt : s.stmt = .ret line value)
    (hBody : s.stmt ∈ opened (scopeBody script s.home))
    (hNamed : s.stmt.Named IsIdentifier) :
    Judged script [s] (located s.line (g.returnCode value)) := by
  cases hInside : g.inside with
  | none =>
    unfold Generator.returnCode
    rw [hInside]
    exact .fails nofun
  | some =>
    have hHome : s.home.isSome = true := by
      rw [← hSees.top]
      unfold Generator.context
      rw [hInside]
      rfl
    have hReads := returnCode_reads (passes_always g.context) (fun _ _ => trivial) value
    refine .of_head hSees hNamed (by rw [hStmt]; rfl) ?_
    cases value with
    | none =>
      rw [hStmt]
      exact hReads.mono fun _ _ => trivial
    | some e =>
      rw [hStmt] at hBody ⊢
      simp only [Option.toList_some, flatMap_singleton] at hReads
      rw [headAtoms, Option.toList_some, flatMap_singleton]
      exact hReads.forget (hSees.value hHome line e hBody)

mutual

/-
  The code of a statement is there only if all that it and its
  blocks read is visible.
-/
theorem stmtCode_judged {before behind : List Stmt} {home : Option Definition}
    {g : Generator}
    (outer : Int)
    (stmt : Stmt)
    (hSees : Sees script home before g)
    (hBody :
      opened (scopeBody script home) = before ++ (opened [stmt] ++ behind))
    (hNamed : stmt.Named IsIdentifier) :
    Judged script (stmtSpots home (targetNames before) outer stmt)
      (located outer (stmtCode g stmt)) := by
  cases stmt with
  | assign =>
    rw [opened_of_closed rfl] at hBody
    rw [stmtCode, located_located]
    exact assignCode_judged hBody rfl hSees hNamed rfl
  | augment =>
    rw [stmtCode, located_located]
    exact .fails nofun
  | expr _ value =>
    rw [stmtCode, located_located]
    exact .of_head hSees hNamed rfl ((exprStmtCode_reads (passes_always _) trivial value).map
        fun _ _ => trivial)
  | ret line value =>
    rw [opened_of_closed rfl] at hBody
    have hMem : .ret line value ∈ opened (scopeBody script home) := by
      simp [hBody]
    rw [stmtCode, located_located]
    exact .ends (returnCode_judged hSees rfl hMem hNamed) fun _ => ⟨_, rfl⟩
  | loop _ test body =>
    rw [opened_loop] at hBody
    rw [stmtCode, located_located, stmtSpots]
    refine .after (label_bare _ _ _).nameless fun (start, g₁) hStart => ?_
    refine .after (label_bare _ _ _).nameless fun (exit, g₂) hExit => ?_
    have hTaken := hSees.quiet (Takes.stays (.label isStem_loop hStart
      (.label isStem_loopEnd hExit (.counted g₂ (g.loops + 1) g₂.conds))))
    refine .next (.of_head hTaken hNamed rfl
      ((conditionCode_reads start exit test).mono fun _ _ => trivial)) fun condition _ => ?_
    exact .ends (blockCode_judged _ body hTaken hBody hNamed.2) fun _ => ⟨_, rfl⟩
  | cond line test body orElse =>
    rw [opened_cond, append_assoc] at hBody
    rw [stmtCode, located_located, stmtSpots]
    refine .after (label_bare _ _ _).nameless fun (start, g₁) hStart => ?_
    refine .after (label_bare _ _ _).nameless fun (exit, g₂) hExit => ?_
    dsimp only
    split
    · next hEmpty =>
      rw [List.isEmpty_iff] at hEmpty
      subst hEmpty
      rw [spots, append_nil]
      have hTaken := hSees.quiet (Takes.stays (.label isStem_cond hStart
        (.label isStem_condEnd hExit (.counted g₂ g₂.loops (g.conds + 1)))))
      refine .next (.of_head hTaken hNamed rfl
        ((conditionCode_reads start exit test).mono fun _ _ => trivial)) fun condition _ => ?_
      exact .ends (blockCode_judged _ body hTaken hBody hNamed.2.1) fun _ => ⟨_, rfl⟩
    · refine .after (label_bare _ _ _).nameless fun (other, g₃) hOther => ?_
      have hTaken := hSees.quiet (Forked.labels hStart hExit hOther).takes.stays
      refine .next (.of_head hTaken hNamed rfl
        ((conditionCode_reads start other test).mono fun _ _ => trivial)) fun condition _ => ?_
      refine .next (blockCode_judged _ body hTaken hBody hNamed.2.1) fun (code, g₄) hCode => ?_
      have hSees₄ := hTaken.stays (blockCode_stays hTaken.distinct hCode)
      rw [← append_assoc] at hBody
      have hElse := blockCode_judged (innerLine outer line) orElse hSees₄ hBody hNamed.2.2
      rw [targetNames_append] at hElse
      exact .ends hElse fun _ => ⟨_, rfl⟩
  | define _ name params body =>
    rw [stmtCode, located_located, stmtSpots]
    refine .next (.silent rfl (enter_nameless g name params body)) fun (entry, g₁) hEnter => ?_
    rcases enter_parts hEnter with ⟨parts⟩
    have hTop : home = none := by
      have hSome := hSees.top
      unfold Generator.context at hSome
      rw [parts.outside] at hSome
      simpa using hSome
    subst hTop
    have hInner := hSees.enter (d := ⟨name, params, body⟩) parts
    have hWhole : opened body = [] ++ (opened body ++ []) := by simp
    exact .ends (blockCode_judged _ body hInner hWhole hNamed.2.2.2) fun _ => ⟨_, rfl⟩
  | pass =>
    rw [stmtCode]
    exact .silent rfl trivial
  | each | breakLoop | continueLoop =>
    rw [stmtCode, located_located]
    exact .fails nofun

theorem blockCode_judged {before behind : List Stmt} {home : Option Definition}
    {g : Generator}
    (outer : Int)
    (stmts : List Stmt)
    (hSees : Sees script home before g)
    (hBody :
      opened (scopeBody script home) = before ++ (opened stmts ++ behind))
    (hNamed : NamedBlock IsIdentifier stmts) :
    Judged script (spots home (targetNames before) outer stmts)
      (located outer (blockCode g stmts)) := by
  cases stmts with
  | nil => exact .done
  | cons stmt rest =>
    rw [opened_cons, append_assoc] at hBody
    rw [blockCode, spots]
    refine (stmtCode_judged outer stmt hSees hBody hNamed.1).next fun (first, g₁) hFirst => ?_
    have hSees₁ := hSees.stays (stmtCode_stays hSees.distinct hFirst)
    rw [← append_assoc] at hBody
    have hRest := blockCode_judged outer rest hSees₁ hBody hNamed.2
    rw [targetNames_append] at hRest
    exact .ends hRest fun _ => ⟨_, rfl⟩

end

end Statements

/- The statements of a script, and those of its functions. -/
def scriptSpots (script : List Stmt) : List Spot := spots none [] 0 script

theorem generate_judged {script : List Stmt}
    (options : Options)
    (hNamed : Script.WellNamed script) :
    Judged script (scriptSpots script) (generate options .empty script) := by
  rw [← located_zero (generate options .empty script)]
  refine .after (analyzeGlobals_nameless _ _) fun globals hAnalyzed => ?_
  refine .after (allocateGlobals_exhausts _ _).bare.nameless fun data hData => ?_
  refine .after (label_bare _ _ _).nameless fun (entry, started) hLabel => ?_
  have hSees := sees_start hAnalyzed (Prod.ext rfl hData) hLabel
  have hWhole : opened script = [] ++ (opened script ++ []) := by simp
  exact .ends (blockCode_judged 0 script hSees hWhole hNamed) fun _ => ⟨_, rfl⟩

/-
  A script compiles only if all names that it reads are visible
  where they are read. If a name is reported as not defined,
  then it is read on the line of the report and not visible
  there, and it is not what the statement assigns to. All that
  is read before in the text is visible.
-/
theorem names_resolved {source : String} {script : List Stmt}
    (options : Options)
    (hParsed : parseSource source = .ok script) :
    (∀ compiled, generate options .empty script = .ok compiled →
      ∀ s ∈ scriptSpots script, s.Resolved script) ∧
      ∀ line name,
        generate options .empty script = .error ⟨line, .undefinedName name⟩ →
          ∃ before s behind,
            scriptSpots script = before ++ s :: behind ∧
            (∀ s ∈ before, s.Resolved script) ∧
            s.line = line ∧
            s.Misses script name := by
  have hJudged := generate_judged options (Script.parseSource_wellNamed hParsed)
  constructor
  · intro _ hCompiled
    rw [hCompiled] at hJudged
    exact hJudged
  · intro _ name hError
    rw [hError] at hJudged
    exact hJudged name rfl

/- Whether a result is some error. -/
def failsWith {α : Type} (e : Error) : Except Error α → Bool
  | .ok _ => false
  | .error e' => e' = e

theorem failsWith_eq_true {e : Error} {x : Except Error α} :
    failsWith e x = true ↔ x = .error e := by
  cases x with
  | ok | error => simp [failsWith]

/-
  A function that reads a parameter, a local, an array and a
  constant. The first value of the array is not computed.
-/
def resolving : String :=
  "_N = 3\nk = 0\ndef f(a):\n    w_ = [a, z]\n    c = a + _N\n"
    ++ "    w_[0] = c\n    return c\nwhile k < _N:\n    k = f(k)\nprint(k)\n"

/- A function that reads a variable of the top level. -/
def missing : String :=
  "_N = 3\nk = 0\ndef f(a):\n    c = a + _N\n    print(k)\nf(k)\n"

theorem names_resolved_functions :
    (∃ script compiled, parseSource resolving = .ok script ∧
        generate ⟨0, ""⟩ .empty script = .ok compiled ∧
        (∃ s ∈ scriptSpots script,
          s.line = 5 ∧ s.home.isSome = true ∧ "_N" ∈ s.reads) ∧
        ∀ s ∈ scriptSpots script, s.Resolved script) ∧
      ∃ script, parseSource missing = .ok script ∧
        generate ⟨0, ""⟩ .empty script = .error ⟨5, .undefinedName "k"⟩ ∧
        Visible script none "k" ∧
        ∃ s ∈ scriptSpots script, s.line = 5 ∧ s.Misses script "k" := by
  constructor
  · have hAccepted : ((parseSource resolving).toOption.any fun script =>
          (generate ⟨0, ""⟩ .empty script).isOk && (scriptSpots script).any fun s =>
              s.line = 5 && s.home.isSome && s.reads.contains "_N") =
          true := by
      decide +kernel
    rcases Result.any_eq_true.mp hAccepted with ⟨script, hParsed, hRest⟩
    simp only [Bool.and_eq_true, List.any_eq_true, decide_eq_true_eq,
      contains_iff_mem] at hRest
    rcases hRest with ⟨hOk, s, hS, ⟨hLine, hHome⟩, hName⟩
    rcases Result.isOk_eq_true.mp hOk with ⟨compiled, hCompiled⟩
    exact ⟨script, compiled, hParsed, hCompiled, ⟨s, hS, hLine, hHome, hName⟩,
      (names_resolved ⟨0, ""⟩ hParsed).1 compiled hCompiled⟩
  · have hRefused : ((parseSource missing).toOption.any fun script =>
          failsWith ⟨5, .undefinedName "k"⟩ (generate ⟨0, ""⟩ .empty script) &&
            (assignedNames script).contains "k") = true := by
      decide +kernel
    rcases Result.any_eq_true.mp hRefused with ⟨script, hParsed, hRest⟩
    rw [Bool.and_eq_true, failsWith_eq_true, contains_iff_mem] at hRest
    rcases (names_resolved ⟨0, ""⟩ hParsed).2 5 "k" hRest.1 with
      ⟨_, s, _, hSplit, _, hLine, hMisses⟩
    exact ⟨script, hParsed, hRest.1, hRest.2, s, by simp [hSplit], hLine, hMisses⟩

/- A function that assigns to a constant behind a use of it. -/
def lateConstant : String :=
  "def f():\n    print(_C)\n    _C = 5\nf()\n"

/-
  The constant is reported as not defined, although the
  function assigns to it.
-/
theorem lateConstant_missed :
    ∃ script, parseSource lateConstant = .ok script ∧
        generate ⟨0, ""⟩ .empty script = .error ⟨2, .undefinedName "_C"⟩ ∧
        ∃ s ∈ scriptSpots script, s.line = 2 ∧ "_C" ∈ s.reads ∧
            ∃ d, s.home = some d ∧ "_C" ∈ assignedNames d.body := by
  have hChecked : ((parseSource lateConstant).toOption.any fun script =>
        failsWith ⟨2, .undefinedName "_C"⟩ (generate ⟨0, ""⟩ .empty script) &&
          (scriptSpots script).any fun s =>
            s.line = 2 && s.reads.contains "_C" &&
              s.home.any fun d => (assignedNames d.body).contains "_C") =
        true := by
    decide +kernel
  rcases Result.any_eq_true.mp hChecked with ⟨script, hParsed, hRest⟩
  simp only [Bool.and_eq_true, failsWith_eq_true, List.any_eq_true,
    decide_eq_true_eq, contains_iff_mem, Option.any_eq_true] at hRest
  rcases hRest with ⟨hError, s, hS, ⟨hLine, hName⟩, d, hHome, hAssigned⟩
  exact ⟨script, hParsed, hError, s, hS, hLine, hName, d, hHome, hAssigned⟩

end Compile

end Pep9
