import Pep9.Proofs.Compile.Placement
import Pep9.Proofs.Compile.Recorded
import Pep9.Proofs.Compile.Tables

/-
  The walk of the generator through a scope. It visits the
  statements in the order of the text, opens the blocks of
  loops and conditionals, and makes code for each function
  that it comes to. Along the walk the variables in sight stay
  the same, and an assignment takes the mark of its variable
  away.

  Key theorems: `Plain.stays`, `define_stays`, `Emits.visits`.
-/

namespace Pep9

open List
open Script (Expr Stmt)

variable {target : String} {label : String} {names : List String}

namespace Compile

variable {stmt : Stmt} {g' : Generator} {code : Code} {name : String}
  {params : List String} {body : List Stmt} {entry : Generator.Entry}

/-
  A statement of a scope that is compiled, with the state
  before it and its code.
-/
structure Visit where
  state : Generator
  stmt : Stmt
  code : Code

/- The assignments of some visits in order. -/
def made (visits : List Visit) : List (String × Expr) :=
  visits.flatMap fun v => assigned v.stmt

theorem made_append (first second : List Visit) :
    made (first ++ second) = made first ++ made second := flatMap_append

/- Whether the blocks of a statement belong to its scope. -/
def opens : Stmt → Bool
  | .cond _ _ _ _ => true
  | .loop _ _ _ => true
  | .each _ _ _ _ => true
  | _ => false

theorem flattenStmt_of_closed
    (h : opens stmt = false)
    (outer : Int) :
    flattenStmt outer stmt = [⟨innerLine outer stmt.line, stmt⟩] := by
  unfold opens at h
  split at h
  · cases h
  · cases h
  · cases h
  · next hCond hLoop hEach =>
    unfold flattenStmt
    split
    · exact absurd rfl (hCond _ _ _ _)
    · exact absurd rfl (hLoop _ _ _)
    · exact absurd rfl (hEach _ _ _ _)
    · rfl

/-
  The visits of a block from one state to another, and the
  code that is put together from theirs.
-/
inductive Visits : Generator → List Stmt → Code → List Visit → Generator → Prop where
  | nil (g : Generator) : Visits g [] [] [] g
  | visit {g g₁ g₂ : Generator} {stmt : Stmt} {rest : List Stmt}
      {first others : Code} {visits : List Visit} (hClosed : opens stmt = false)
      (hFirst : stmtCode g stmt = .ok (first, g₁)) (hRest : Visits g₁ rest others visits g₂) :
      Visits g (stmt :: rest) (first ++ others) (⟨g, stmt, first⟩ :: visits) g₂
  | guarded {g g₁ g₂ g₃ : Generator} {line : Int} {test : Expr} {stmt : Stmt}
      {body rest : List Stmt} {start exit target : String}
      {condition code others : Code} {inner visits : List Visit}
      (hLabels : Guarded g line test body stmt start exit target g₁)
      (hTest : g₁.context.conditionCode start exit test = .ok condition)
      (hBody : Visits g₁ body code inner g₂)
      (hRest : Visits g₂ rest others visits g₃) : Visits g (stmt :: rest)
        (condition ++ code ++ [.jump .br target, mark exit] ++ others) (inner ++ visits) g₃
  | condElse {g g₁ g₂ g₃ g₄ : Generator} {line : Int} {test : Expr}
      {body orElse rest : List Stmt} {start exit other : String}
      {condition code elseCode others : Code} {inner second visits : List Visit}
      (hElse : orElse.isEmpty = false) (hLabels : Forked g start exit other g₁)
      (hTest : g₁.context.conditionCode start other test = .ok condition)
      (hBody : Visits g₁ body code inner g₂)
      (hOrElse : Visits g₂ orElse elseCode second g₃) (hRest : Visits g₃ rest others visits g₄) :
      Visits g (.cond line test body orElse :: rest)
        (condition ++ code ++ [.jump .br exit, mark other] ++ elseCode ++ [mark exit] ++ others)
        (inner ++ second ++ visits) g₄

variable {g g₁ g₂ : Generator} {stmts : List Stmt} {stem : String}

theorem Guarded.flatten_eq {line : Int} {test : Expr} {start exit : String}
    (h : Guarded g line test body stmt start exit target g₁)
    (outer : Int) :
    flattenStmt outer stmt = flatten (innerLine outer line) body := by
  cases h with
  | loop => rfl
  | cond =>
    rw [flattenStmt, flatten]
    exact append_nil _

theorem Plain.closed (h : Plain g stmt code g') : opens stmt = false := by
  cases h <;> rfl

/- A table that requests have led to. -/
def Tidy (t : SymbolTable) : Prop := ∃ past, Orderly t past

namespace Tidy

variable {t t' : SymbolTable}

variable (h : Tidy t)
include h

theorem answer {request : Request} {returned : Option String}
    (hAnswer : request.answer t = .ok (returned, t')) :
    Tidy t' := by
  rcases h with ⟨_, hOrderly⟩
  exact ⟨_, hOrderly.answer hAnswer⟩

theorem generate {id : Int}
    (hMade : t.generate stem id = .ok (label, t')) :
    Tidy t' := by
  have hAnswer : Request.answer t (.generate stem id) = .ok (some label, t') :=
    Result.map_eq_ok.mpr ⟨_, hMade, rfl⟩
  exact h.answer hAnswer

theorem bindGlobal {kind : SymbolKind}
    (hBound : t.bindGlobal kind name = .ok (target, t')) :
    Tidy t' := by
  have hAnswer : Request.answer t (.bindGlobal kind name) = .ok (some target, t') :=
    Result.map_eq_ok.mpr ⟨_, hBound, rfl⟩
  exact h.answer hAnswer

theorem child : Tidy t.child := by
  rcases h with ⟨past, hOrderly⟩
  exact ⟨past, hOrderly.child⟩

theorem merge (other : SymbolTable) : Tidy (t.merge other) := by
  rcases h with ⟨_, hOrderly⟩
  exact ⟨_, hOrderly.merge other⟩

/- Marks do not matter. -/
theorem remark (marks : List String) : Tidy { t with special := marks } := by
  rcases h with ⟨past, hOrderly⟩
  refine ⟨past ++ [], hOrderly.extend ?_ ?_ ?_⟩
  · intro k
    cases k <;> rfl
  · intro k _ hName
    cases k <;> exact hName
  · simp

theorem marked
    (marked : Bool)
    (target : String) :
    Tidy (markIf marked target t) := by
  unfold markIf
  split
  · exact h.remark _
  · exact h

end Tidy

/- Variables with targets of their own. -/
def Distinct (bindings : Bindings) : Prop :=
  ∀ b ∈ bindings, ∀ b' ∈ bindings, b.target = b'.target → b.source = b'.source

theorem Tidy.distinct {t : SymbolTable} (h : Tidy t) : Distinct t.data := by
  rcases h with ⟨_, hOrderly⟩
  intro b hB b' hB' hTarget
  by_contra hSource
  exact hOrderly.distinct .data .data b hB b' hB' (.inl hSource) hTarget

/-
  Two states of the same scope with some assignments between
  them: the same variables are in sight, and those that are
  assigned to have no mark any more.
-/
structure Stays (seen : List (String × Expr)) (g g' : Generator) : Prop where
  usual : g'.usual = g.usual
  function : g'.context.function = g.context.function
  data : g'.context.table.data = g.context.table.data
  arrays : ∀ target ∈ g.arrays, target ∈ g'.arrays
  special : ∀ name b, g.context.table.data.find name = some b →
      (b.target ∈ g'.context.table.special ↔
        b.target ∈ g.context.table.special ∧ ∀ p ∈ seen, p.1 ≠ name)
  tidy : Tidy g.table → Tidy g'.table

namespace Stays

variable {seen later : List (String × Expr)}

theorem trans
    (h₁ : Stays seen g g₁)
    (h₂ : Stays later g₁ g₂) :
    Stays (seen ++ later) g g₂ where
  usual := h₂.usual.trans h₁.usual
  function := h₂.function.trans h₁.function
  data := h₂.data.trans h₁.data
  arrays := fun target hTarget => h₂.arrays target (h₁.arrays target hTarget)
  special := by
    intro name b hFound
    rw [h₂.special name b (h₁.data ▸ hFound), h₁.special name b hFound,
      forall_mem_append, and_assoc]
  tidy := fun h => h₂.tidy (h₁.tidy h)

/- Nothing is assigned to. -/
theorem of_steady
    (h : Steady g g₁)
    (hSpecial : g₁.context.table.special = g.context.table.special)
    (hTidy : Tidy g.table → Tidy g₁.table) :
    Stays [] g g₁ where
  usual := h.usual
  function := h.alike.function
  data := h.alike.data
  arrays := by
    rw [h.arrays]
    exact fun target hTarget => hTarget
  special := by
    intro _ _ _
    rw [hSpecial]
    simp
  tidy := hTidy

theorem refl (g : Generator) : Stays [] g g := of_steady (.refl g) rfl id

/- Counting loops and conditionals changes nothing else. -/
theorem counted
    (h : Stays seen g g₁)
    (loops conds : Nat) :
    Stays seen g { g₁ with loops := loops, conds := conds } where
  usual := h.usual
  function := h.function
  data := h.data
  arrays := h.arrays
  special := h.special
  tidy := h.tidy

end Stays

theorem stays_label {id : Nat}
    (hStem : IsStem stem)
    (h : g.label stem id = .ok (label, g')) :
    Stays [] g g' := by
  have hSteady := (steady_label hStem h).1
  rcases label_eq_ok h with ⟨_, hTable, rfl⟩
  apply Stays.of_steady hSteady
  · rcases SymbolTable.generate_cases hTable with ⟨_, _, _, rfl⟩
    unfold Generator.context
    cases g.inside with
    | none | some => rfl
  · intro hTidy
    exact hTidy.generate hTable

theorem Takes.stays (h : Takes g names g') : Stays [] g g' := by
  induction h with
  | counted g loops conds => exact (Stays.refl g).counted loops conds
  | label hStem hLabel _ ih => exact (stays_label hStem hLabel).trans ih

/- The marks of a scope after one was taken away. -/
theorem unmarkSpecial_special
    (g : Generator)
    (target : String) :
    (g.unmarkSpecial target).context.table.special =
      g.context.table.special.filter (· ≠ target) := by
  unfold Generator.unmarkSpecial
  cases hInside : g.inside with
  | none | some =>
    unfold Generator.context
    dsimp only
    rw [hInside]
    rfl

theorem unmarkSpecial_tidy (h : Tidy g.table) :
    Tidy (g.unmarkSpecial target).table := by
  unfold Generator.unmarkSpecial
  split
  · exact h.remark _
  · exact h

/- A simple statement changes marks of its own targets. -/
theorem Plain.stays {g g' : Generator} {stmt : Stmt} {code : Code}
    (h : Plain g stmt code g')
    (hDistinct : Distinct g.context.table.data) :
    Stays (assigned stmt) g g' := by
  cases h with
  | pass => exact .refl g
  | @elided _ name _ _ hRef =>
    rcases reference_eq_ok hRef with ⟨b, hFound, rfl⟩
    have hSteady := (steady_unmarkSpecial g b.target).1
    refine {
      usual := hSteady.usual
      function := hSteady.alike.function
      data := hSteady.alike.data
      arrays := hSteady.arrays ▸ fun target hTarget => hTarget
      special := ?_
      tidy := unmarkSpecial_tidy }
    intro other b' hFound'
    rw [unmarkSpecial_special, mem_filter]
    have hSame : b'.target = b.target ↔ name = other := by
      constructor
      · intro hTarget
        rcases Bindings.find_eq_some hFound with ⟨hB, hSource⟩
        rcases Bindings.find_eq_some hFound' with ⟨hB', hSource'⟩
        rw [← hSource, ← hSource']
        exact (hDistinct b' hB' b hB hTarget).symm
      · rintro rfl
        rw [hFound, Option.some.injEq] at hFound'
        rw [hFound']
    simp [assigned, hSame]
  | @stored _ _ _ _ _ hRef hSpecial =>
    rcases reference_eq_ok hRef with ⟨_, hFound, rfl⟩
    refine { Stays.refl g with special := ?_ }
    intro _ _ hFound'
    constructor
    · intro hMark
      refine ⟨hMark, ?_⟩
      intro _ hP hName
      rw [mem_singleton.mp hP] at hName
      subst hName
      rw [hFound, Option.some.injEq] at hFound'
      rw [← hFound'] at hMark
      exact absurd hMark (by simpa [SymbolTable.isSpecial] using hSpecial)
    · exact fun hMark => hMark.1
  | element | expr | ret => exact .refl g

------------------------------------------------------------
-- Functions
------------------------------------------------------------

/-
  Two states inside a function, between which the table of the
  top level keeps its variables and their marks.
-/
structure Sheltered (g g' : Generator) : Prop where
  steady : Steady g g'
  special : g'.table.special = g.table.special
  tidy : Tidy g.table → Tidy g'.table

namespace Sheltered

theorem refl (g : Generator) : Sheltered g g := ⟨.refl g, rfl, id⟩

theorem trans
    (h₁ : Sheltered g g₁)
    (h₂ : Sheltered g₁ g₂) :
    Sheltered g g₂ where
  steady := h₁.steady.trans h₂.steady
  special := h₂.special.trans h₁.special
  tidy := fun h => h₂.tidy (h₁.tidy h)

theorem isSome
    (h : Sheltered g g₁)
    (hInside : g.inside.isSome = true) :
    g₁.inside.isSome = true :=
  h.steady.inside.isSome_eq.trans hInside

end Sheltered

theorem Takes.sheltered (h : Takes g names g') : Sheltered g g' :=
  ⟨h.steady, h.special_eq, h.stays.tidy⟩

theorem Plain.sheltered
    (h : Plain g stmt code g')
    (hInside : g.inside.isSome = true) :
    Sheltered g g' := by
  refine ⟨h.steady.1, ?_, ?_⟩
  · cases h with
    | elided =>
      unfold Generator.unmarkSpecial
      split
      · next hNone =>
        rw [hNone] at hInside
        cases hInside
      · rfl
    | pass | stored | element | expr | ret => rfl
  · cases h with
    | elided => exact unmarkSpecial_tidy
    | pass | stored | element | expr | ret => exact id

/- No function is entered while another one is compiled. -/
theorem Emits.sheltered
    (h : Emits g stmts code g')
    (hInside : g.inside.isSome = true) :
    Sheltered g g' := by
  induction h with
  | nil g => exact .refl g
  | plain hFirst _ ih =>
    have hStep := hFirst.sheltered hInside
    exact hStep.trans (ih (hStep.isSome hInside))
  | guarded hLabels _ _ _ ihBody ihRest =>
    have hTaken := hLabels.takes.sheltered
    have hInner := hTaken.trans (ihBody (hTaken.isSome hInside))
    exact hInner.trans (ihRest (hInner.isSome hInside))
  | condElse _ hLabels _ _ _ _ ihBody ihElse ihRest =>
    have hTaken := hLabels.takes.sheltered
    have hInner := hTaken.trans (ihBody (hTaken.isSome hInside))
    have hSecond := hInner.trans (ihElse (hInner.isSome hInside))
    exact hSecond.trans (ihRest (hSecond.isSome hInside))
  | define hEnter =>
    rcases enter_parts hEnter with ⟨parts⟩
    rw [parts.outside] at hInside
    cases hInside

theorem foldl_reserve_special
    (t : SymbolTable)
    (kind : SymbolKind)
    (bindings : List Binding) :
    (bindings.foldl (fun acc b => acc.reserve kind b.target) t).special =
      t.special := by
  induction bindings generalizing t with
  | nil => rfl
  | cons _ _ ih =>
    rw [foldl_cons, ih]
    cases kind with
    | data | label => rfl

theorem merge_special (t other : SymbolTable) :
    (t.merge other).special = t.special := by
  unfold SymbolTable.merge
  dsimp only
  rw [foldl_reserve_special, foldl_reserve_special]

/- What is seen outside when a function is entered. -/
theorem EnterParts.outer (parts : EnterParts g name params body entry g') :
    g'.table.data = g.table.data ∧ g'.table.special = g.table.special ∧
      (Tidy g.table → Tidy g'.table) := by
  have hBound : parts.bound.data = g.table.data ∧ parts.bound.special = g.table.special := by
    rcases SymbolTable.bindGlobal_cases parts.label_eq with ⟨_, _, _, _, hSame⟩ | ⟨_, _, _, hNew⟩
    · rw [hSame]
      exact ⟨rfl, rfl⟩
    · rw [hNew, (SymbolTable.bind_labels rfl).2, SymbolTable.bind_special]
      exact ⟨rfl, rfl⟩
  rcases SymbolTable.generate_cases parts.landing_eq with ⟨_, _, _, hLanded⟩
  rw [parts.after]
  refine ⟨?_, ?_, ?_⟩
  · dsimp only
    rw [hLanded]
    exact hBound.1
  · dsimp only
    rw [hLanded]
    exact hBound.2
  · intro hTidy
    exact (hTidy.bindGlobal parts.label_eq).generate parts.landing_eq

/- A function changes nothing that its surroundings see. -/
theorem define_stays
    (hEnter : g.enter name params body = .ok (entry, g₁))
    (hBody : Emits g₁ body code g₂) :
    Stays [] g (g₂.leave entry) := by
  rcases enter_parts hEnter with ⟨parts⟩
  rcases parts.outer with ⟨hData, hSpecial, hTidy⟩
  have hInside : g₁.inside.isSome = true := by
    rw [parts.after]
    rfl
  have hSheltered := hBody.sheltered hInside
  have hContext : g.context.table = g.table := by
    unfold Generator.context
    rw [parts.outside]
  have hFunction : g.context.function = none := by
    unfold Generator.context
    rw [parts.outside]
  have hMarks : (g₂.leave entry).context.table.special =
        g.context.table.special := by
    rw [hContext]
    exact (merge_special _ _).trans (hSheltered.special.trans hSpecial)
  refine {
    usual := ?_
    function := hFunction.symm
    data := ?_
    arrays := ?_
    special := ?_
    tidy := fun h => (hSheltered.tidy (hTidy h)).merge entry.table }
  · have hUsual := hSheltered.steady.usual
    rw [parts.after] at hUsual
    exact hUsual
  · rw [hContext]
    exact (SymbolTable.merge_bindings _ _).1.trans (hSheltered.steady.data.trans hData)
  · intro target hTarget
    have hArrays := hSheltered.steady.arrays
    rw [parts.after] at hArrays
    change target ∈ g₂.arrays
    rw [hArrays]
    exact mem_append_left _ hTarget
  · intro _ _ _
    rw [hMarks]
    simp

/-
  A walk with some visits: each of them is made in a state of
  the same scope, behind the assignments before it.
-/
structure Followed (g : Generator) (visits : List Visit) (g' : Generator) : Prop where
  stays : Stays (made visits) g g'
  visited : ∀ before v behind, visits = before ++ v :: behind → Stays (made before) g v.state ∧
        ∃ next, stmtCode v.state v.stmt = .ok (v.code, next)

namespace Followed

variable {first second visits : List Visit}

theorem nil (g : Generator) : Followed g [] g where
  stays := .refl g
  visited := by simp

theorem append
    (h₁ : Followed g first g₁)
    (h₂ : Followed g₁ second g₂) :
    Followed g (first ++ second) g₂ where
  stays := by
    rw [made_append]
    exact h₁.stays.trans h₂.stays
  visited := by
    intro before v behind hSplit
    rcases append_eq_append_iff.mp hSplit with
      ⟨more, hBefore, hSecond⟩ | ⟨more, hFirst, hBehind⟩
    · rcases h₂.visited more v behind hSecond with ⟨hStays, hCode⟩
      rw [hBefore, made_append]
      exact ⟨h₁.stays.trans hStays, hCode⟩
    · cases more with
      | nil =>
        rw [append_nil] at hFirst
        rcases h₂.visited [] v behind hBehind.symm with ⟨hStays, hCode⟩
        have hAll := h₁.stays.trans hStays
        rw [hFirst, show made [] = [] from rfl, append_nil] at hAll
        exact ⟨hAll, hCode⟩
      | cons _ rest =>
        cases hBehind
        exact h₁.visited before v rest hFirst

/- What comes before the first visit assigns to nothing. -/
theorem after
    (hQuiet : Stays [] g g₁)
    (h : Followed g₁ visits g₂) :
    Followed g visits g₂ := by
  have hNone : Followed g [] g₁ := ⟨hQuiet, by simp⟩
  exact hNone.append h

theorem single
    (hStays : Stays (assigned stmt) g g₁)
    (hCode : stmtCode g stmt = .ok (code, g₁)) :
    Followed g [⟨g, stmt, code⟩] g₁ where
  stays := by
    rw [made, flatMap_singleton]
    exact hStays
  visited := by
    intro _ _ _ hSplit
    rcases singleton_eq_append_iff.mp hSplit with ⟨rfl, hV⟩ | ⟨_, hNone⟩
    · cases hV
      exact ⟨.refl g, g₁, hCode⟩
    · cases hNone

end Followed

/-
  The statements that are visited are those of the scope, in
  the order of the text.
-/
theorem Emits.visits
    (h : Emits g stmts code g')
    (hDistinct : Distinct g.context.table.data) :
    ∃ visits, Visits g stmts code visits g' ∧ Followed g visits g' ∧
        ∀ outer, visits.map Visit.stmt = (flatten outer stmts).map Located.stmt := by
  induction h with
  | nil g => exact ⟨[], .nil g, .nil g, fun _ => rfl⟩
  | plain hFirst _ ih =>
    have hStays := hFirst.stays hDistinct
    rcases ih (hStays.data ▸ hDistinct) with ⟨_, hVisits, hFollowed, hStmts⟩
    refine ⟨_, .visit hFirst.closed hFirst.stmtCode_eq hVisits,
      (Followed.single hStays hFirst.stmtCode_eq).append hFollowed, ?_⟩
    intro outer
    rw [flatten, flattenStmt_of_closed hFirst.closed, map_cons, hStmts outer]
    rfl
  | guarded hLabels hTest _ _ ihBody ihRest =>
    have hTaken := hLabels.takes.stays
    rcases ihBody (hTaken.data ▸ hDistinct) with ⟨_, hInner, hInnerFollowed, hInnerStmts⟩
    have hBlock := Followed.after hTaken hInnerFollowed
    rcases ihRest (hBlock.stays.data ▸ hDistinct) with ⟨_, hVisits, hFollowed, hStmts⟩
    refine ⟨_, .guarded hLabels hTest hInner hVisits, hBlock.append hFollowed, ?_⟩
    intro _
    rw [flatten, hLabels.flatten_eq, map_append, map_append, hInnerStmts, hStmts]
  | condElse hElse hLabels hTest _ _ _ ihBody ihElse ihRest =>
    have hTaken := hLabels.takes.stays
    rcases ihBody (hTaken.data ▸ hDistinct) with ⟨_, hInner, hInnerFollowed, hInnerStmts⟩
    have hBlock := Followed.after hTaken hInnerFollowed
    rcases ihElse (hBlock.stays.data ▸ hDistinct) with
      ⟨_, hSecond, hSecondFollowed, hSecondStmts⟩
    have hBlocks := hBlock.append hSecondFollowed
    rcases ihRest (hBlocks.stays.data ▸ hDistinct) with ⟨_, hVisits, hFollowed, hStmts⟩
    refine ⟨_, .condElse hElse hLabels hTest hInner hSecond hVisits,
      hBlocks.append hFollowed, ?_⟩
    intro _
    rw [flatten, flattenStmt, map_append, map_append,
      map_append, map_append, hInnerStmts, hSecondStmts, hStmts]
  | @define g _ g₂ _ line name params body _ entry _ _ hEnter hBody _ _ ihRest =>
    have hCode := stmtCode_define line hEnter hBody.blockCode_eq
    have hStays : Stays (assigned (.define line name params body)) g (g₂.leave entry) :=
      define_stays hEnter hBody
    rcases ihRest (hStays.data ▸ hDistinct) with ⟨_, hVisits, hFollowed, hStmts⟩
    refine ⟨_, .visit rfl hCode hVisits, (Followed.single hStays hCode).append hFollowed, ?_⟩
    intro outer
    rw [flatten, flattenStmt_of_closed rfl, map_cons, hStmts outer]
    rfl

end Compile

end Pep9
