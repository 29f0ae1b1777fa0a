import Pep9.Proofs.Compile.Placement
import Pep9.Proofs.Compile.StackLevel

/-
  Layouts of statements. A statement leaves the level of the
  stack as it is, and a return gives the bytes of the locals
  back. So do loops, conditionals and whole functions when the
  blocks in them do.

  Key theorems: `Plain.seated`, `seated_guarded`,
  `seated_branches`, `exists_island`.
-/

namespace Pep9

open List
open Isa (Mnemonic)
open Listing (Instruction)
open Script (Expr Stmt)

variable {base d : Int} {inside : Bool} {target : String}

namespace Compile

/-
  A layout at the level of a scope: it is entered there, and
  where it is left control goes on there.
-/
structure Seated (ctx : Context) (layout : Layout) : Prop where
  flows : Flows ctx.function.isSome ctx.base [] layout.chart (some ctx.base)
  enters : layout.chart.entry (some ctx.base) = some ctx.base

/- A layout that control does not leave at its end. -/
structure Ends (ctx : Context) (layout : Layout) : Prop where
  linked : layout.chart.Linked none
  enters : layout.chart.entry none = some ctx.base

variable {outer : List String}

section Layouts

variable {ctx : Context} {first second layout : Layout} {code : Code}

theorem seated_nil (ctx : Context) : Seated ctx [] := ⟨.nil, rfl⟩

theorem Seated.append
    (hFirst : Seated ctx first)
    (hSecond : Seated ctx second) :
    Seated ctx (first ++ second) where
  flows := by
    rw [Layout.chart_append]
    refine .append ?_ hSecond.flows
    rw [hSecond.enters]
    exact hFirst.flows
  enters := by
    rw [Layout.chart_append, Chart.entry_append, hSecond.enters, hFirst.enters]

theorem Seated.append_ends
    (hFirst : Seated ctx first)
    (hSecond : Ends ctx second) :
    Ends ctx (first ++ second) where
  linked := by
    rw [Layout.chart_append, Chart.linked_append, hSecond.enters]
    exact ⟨hFirst.flows.linked, hSecond.linked⟩
  enters := by
    rw [Layout.chart_append, Chart.entry_append, hSecond.enters, hFirst.enters]

theorem Context.Keeps.seated (h : ctx.Keeps code) :
    Seated ctx (plot ctx.base code) :=
  ⟨Level.flows h [], Level.entry h⟩

theorem seated_of_end {last : Instruction}
    (hLevel : Level ctx.function.isSome ctx.base ctx.base code d)
    (hSound : Sound ctx.function.isSome ctx.base d last)
    (hFalls : last.fallsThrough = false)
    (hJump : last.jumpsTo? = none) :
    Seated ctx (plot ctx.base (code ++ [last])) ∧ Ends ctx (plot ctx.base (code ++ [last])) := by
  have hEntry : ∀ level, Chart.entry level (plot ctx.base (code ++ [last])).chart =
          some ctx.base := by
    intro _
    rw [hLevel.plot_append, Layout.chart_append, Chart.entry_append]
    exact hLevel.entry
  have hFlows : ∀ level, Flows ctx.function.isSome ctx.base []
          (plot ctx.base (code ++ [last])).chart level := by
    intro _
    rw [hLevel.plot_append, Layout.chart_append]
    refine .append (hLevel.flows []) (.single hSound ?_ ?_)
    · intro hTrue
      cases hFalls.symm.trans hTrue
    · intro _ hTo
      cases hJump.symm.trans hTo
  exact ⟨⟨hFlows _, hEntry _⟩, (hFlows none).linked, hEntry none⟩

theorem sound_stop (hDepth : 0 ≤ d) :
    Sound inside base d (.plain .stop) := by
  refine ⟨hDepth, .inr (.inr (.inl rfl)), nofun, nofun, ?_, ?_⟩
  · intro _ _ _ hSymbol
    cases hSymbol
  · rintro (hOp | hOp)
    · cases hOp
    · cases hOp

theorem sound_ret (base : Int) : Sound true base 0 (.plain .ret) := by
  refine ⟨Int.le_refl 0, .inr (.inr (.inr rfl)), ?_, nofun, ?_, ?_⟩
  · intro _
    exact ⟨rfl, rfl⟩
  · intro _ _ _ hSymbol
    cases hSymbol
  · rintro (hOp | hOp)
    · cases hOp
    · cases hOp

theorem flows_jump {last : Option Int} {m : Mnemonic}
    (hBase : 0 ≤ base)
    (hForm : m.form = .branch)
    (hCall : m ≠ .call)
    (hOuter : target ∈ outer)
    (hLast : m ≠ .br → last = some base) :
    Flows inside base outer [(some base, .jump m target)] last := by
  have hJump : (Instruction.jump m target).jumpsTo? = some target := if_pos ⟨hForm, hCall⟩
  refine .single ⟨hBase, .inr (.inl ⟨target, hJump⟩), ?_, ?_, ?_, ?_⟩ ?_ ?_
  · intro hOp
    cases hOp
    cases hForm
  · intro hOp
    cases hOp
    cases hForm
  · intro _ _ hOp _ hNot
    cases hOp
    exact absurd hForm hNot
  · rintro (hOp | hOp)
    · cases hOp
      cases hForm
    · cases hOp
      cases hForm
  · intro hFalls
    rw [Instruction.sinks_of_jump hJump, Int.add_zero]
    refine hLast ?_
    rintro rfl
    cases hFalls
  · intro _ hGoal
    cases hJump.symm.trans hGoal
    exact ⟨rfl, hOuter⟩

/-
  A condition: control goes on behind it or to its exit, and
  comes to it at its label.
-/
theorem condition_flows {label exit : String} {test : Expr}
    (hExit : exit ∈ outer)
    (h : ctx.conditionCode label exit test = .ok code) :
    Flows ctx.function.isSome ctx.base outer (plot ctx.base code).chart (some ctx.base) ∧
      (∀ last, Chart.entry last (plot ctx.base code).chart = some ctx.base) ∧
      ∃ j, (some ctx.base, j) ∈ (plot ctx.base code).chart ∧ j.label = label := by
  rcases conditionCode_parts h with ⟨parts⟩
  have hSome := operandCode_ne_nil parts.first_eq
  have hFirst := ctx.joined_keeps.operand isRead_load parts.first_eq
  have hSecond := ctx.joined_keeps.operand isRead_compare parts.second_eq
  rcases exitBranch_form parts.op with ⟨hForm, hCall⟩
  have hOperands := (hFirst.labelFirst label).append hSecond
  rw [parts.code_eq, hOperands.plot_append]
  cases hCode : parts.first with
  | nil => exact absurd hCode hSome
  | cons i =>
    rw [hCode] at hOperands
    refine ⟨?_, fun _ => rfl, i.labelled label, ?_, rfl⟩
    · rw [Layout.chart_append]
      exact .append (hOperands.flows outer)
        (flows_jump ctx.base_nonneg hForm hCall hExit fun _ => rfl)
    · exact mem_cons_self

end Layouts

section Statements

variable {g g' : Generator} {code : Code}

/- The bytes of the locals are given back. -/
theorem level_leave {ctx : Context} {sig : Signature}
    (hFunction : ctx.function = some sig) :
    Level ctx.function.isSome ctx.base ctx.base (adjustStack .addsp sig.localsSize) 0 := by
  rw [← Int.sub_self ctx.base]
  nth_rewrite 4 [Context.base_of_function hFunction]
  exact level_addsp ctx.base_nonneg sig.localsSize

/- A simple statement leaves the stack as it was. -/
theorem Plain.seated {stmt : Stmt}
    (hCalls : g.context.Countable)
    (h : Plain g stmt code g') :
    Seated g.context (plot g.context.base code) ∧
      (endsWithReturn [stmt] = true ∨ endsWithExit [stmt] = true →
        Ends g.context (plot g.context.base code)) := by
  have hKeeps := composed_keeps hCalls
  cases hKeeps.plain h with
  | through hCode hReturn hExit =>
    refine ⟨hCode.seated, ?_⟩
    rw [hReturn, hExit]
    exact (nomatch ·)
  | stop =>
    have hEnd := seated_of_end g.context.keeps_nil (sound_stop g.context.base_nonneg) rfl rfl
    exact ⟨hEnd.1, fun _ => hEnd.2⟩
  | @ret _ _ _ f _ hFunction _ hParts =>
    have hLeave := level_leave hFunction
    have hSound : Sound g.context.function.isSome g.context.base 0 (.plain .ret) := by
      rw [hFunction]
      exact sound_ret _
    have hEnd : ∃ straight, code = straight ++ [.plain .ret] ∧
        Level g.context.function.isSome g.context.base g.context.base straight 0 := by
      cases hParts with
      | none => exact ⟨_, rfl, hLeave⟩
      | @some _ _ slot hMade =>
        have hStore := (hKeeps.expr hMade).append
          (g.context.keeps_quiet (quiet_store .a) (.symbol slot) .stackRelative)
        refine ⟨_, ?_, Level.append hStore hLeave⟩
        simp only [Signature.leaving, storeValue, append_assoc]
        rfl
    rcases hEnd with ⟨_, rfl, hLevel⟩
    have hEnds := seated_of_end hLevel hSound rfl rfl
    exact ⟨hEnds.1, fun _ => hEnds.2⟩

end Statements

------------------------------------------------------------
-- Loops and Conditionals
------------------------------------------------------------

section Seats

variable {ctx : Context} {body orElse : Layout} {start exit other : String}
  {test : Expr} {condition : Code}

/- The branch behind a block and the mark of its end. -/
def closing (base : Int) (target label : String) : Layout :=
  [.own base (.jump .br target), .own base (mark label)]

theorem closing_entry
    (base : Int)
    (target label : String)
    (last : Option Int) :
    (closing base target label).chart.entry last = some base := rfl

theorem closing_flows
    (hTarget : target ∈ outer)
    (label : String) :
    Flows ctx.function.isSome ctx.base outer
      (closing ctx.base target label).chart (some ctx.base) := by
  have hMark : Flows ctx.function.isSome ctx.base outer
      [(some ctx.base, mark label)] (some ctx.base) :=
    Level.flows (level_mark ctx.base_nonneg label) outer
  refine Flows.append ?_ hMark
  exact flows_jump ctx.base_nonneg rfl nofun hTarget fun _ => rfl

/-
  A condition before a block. The branch behind the block
  goes back to the condition or to the end.
-/
theorem seated_guarded {back : String}
    (hTest : ctx.conditionCode start exit test = .ok condition)
    (hBody : Seated ctx body)
    (hBack : back ∈ [start, exit]) :
    Seated ctx
      (plot ctx.base condition ++ body ++ closing ctx.base back exit) := by
  have hExit : exit ∈ [start, exit] := by simp
  rcases condition_flows hExit hTest with ⟨hCondition, hEntry, i, hStart, hLabel⟩
  have hOpen : Flows ctx.function.isSome ctx.base [start, exit]
        ((plot ctx.base condition).chart ++ body.chart
          ++ (closing ctx.base back exit).chart) (some ctx.base) := by
    refine .append (.append ?_ ?_) (closing_flows hBack exit)
    · rw [closing_entry, hBody.enters]
      exact hCondition
    · exact hBody.flows.widen _
  refine ⟨?_, ?_⟩
  · rw [Layout.chart_append, Layout.chart_append]
    refine hOpen.close fun target hTarget => ?_
    rcases mem_cons.mp hTarget with rfl | hTarget
    · exact ⟨i, by simp [hStart], hLabel⟩
    · rw [mem_singleton.mp hTarget]
      exact ⟨mark exit, by simp [closing, Piece.chart], rfl⟩
  · rw [Layout.chart_append, Layout.chart_append, Chart.entry_append, Chart.entry_append]
    exact hEntry _

/- Two blocks that meet behind the second. -/
theorem seated_branches
    (hTest : ctx.conditionCode start other test = .ok condition)
    (hBody : Seated ctx body)
    (hOrElse : Seated ctx orElse) :
    Seated ctx (plot ctx.base condition ++ body ++ closing ctx.base exit other
        ++ orElse ++ [.own ctx.base (mark exit)]) := by
  have hOther : other ∈ [start, exit, other] := by simp
  have hExit : exit ∈ [start, exit, other] := by simp
  rcases condition_flows hOther hTest with ⟨hCondition, hEntry, i, hStart, hLabel⟩
  have hMark : Flows ctx.function.isSome ctx.base [start, exit, other]
      (Layout.chart [.own ctx.base (mark exit)]) (some ctx.base) :=
    Level.flows (level_mark ctx.base_nonneg exit) _
  have hOpen : Flows ctx.function.isSome ctx.base [start, exit, other]
        ((plot ctx.base condition).chart ++ body.chart
          ++ (closing ctx.base exit other).chart ++ orElse.chart
          ++ Layout.chart [.own ctx.base (mark exit)]) (some ctx.base) := by
    refine .append (.append (.append (.append ?_ ?_) ?_) ?_) hMark
    · rw [closing_entry, hBody.enters]
      exact hCondition
    · exact hBody.flows.widen _
    · have hEnd : Chart.entry (some ctx.base) (Layout.chart [.own ctx.base (mark exit)]) =
              some ctx.base := rfl
      rw [hEnd, hOrElse.enters]
      exact closing_flows hExit other
    · exact hOrElse.flows.widen _
  refine ⟨?_, ?_⟩
  · simp only [Layout.chart_append]
    refine hOpen.close fun target hTarget => ?_
    rcases mem_cons.mp hTarget with rfl | hTarget
    · exact ⟨i, by simp [hStart], hLabel⟩
    · rcases mem_cons.mp hTarget with rfl | hTarget
      · exact ⟨mark target, by simp [Piece.chart], rfl⟩
      · rw [mem_singleton.mp hTarget]
        exact ⟨mark other, by simp [closing, Piece.chart], rfl⟩
  · simp only [Layout.chart_append, Chart.entry_append]
    exact hEntry _

end Seats

/- Without functions in between every instruction has a level. -/
theorem Layout.isSome_of_islands {layout : Layout}
    (h : layout.islands = []) :
    ∀ p ∈ layout.chart, p.1.isSome = true := by
  intro _ hP
  rcases mem_flatMap.mp hP with ⟨piece, hPiece, hMem⟩
  cases piece with
  | own =>
    rw [Piece.chart, mem_singleton] at hMem
    rw [hMem]
    rfl
  | island =>
    have hF := Layout.mem_islands.mpr hPiece
    rw [h] at hF
    cases hF

/- The code behind the body of a function. -/
def returning (sig : Signature) (body : List Stmt) : Layout :=
  if endsWithReturn body then []
  else plot sig.base (adjustStack .addsp sig.localsSize ++ [.plain .ret])

theorem returning_code
    (sig : Signature)
    (body : List Stmt) :
    (returning sig body).code =
      if endsWithReturn body then []
      else adjustStack .addsp sig.localsSize ++ [.plain .ret] := by
  unfold returning
  split
  · rfl
  · exact plot_code _ _

theorem returning_islands
    (sig : Signature)
    (body : List Stmt) :
    (returning sig body).islands = [] := by
  unfold returning
  split
  · rfl
  · exact plot_islands _ _

/- A block that control does not leave at its end. -/
def Closes (stmts : List Stmt) : Prop :=
  endsWithReturn stmts = true ∨ endsWithExit stmts = true

section Functions

variable {ctx : Context} {sig : Signature} {body : List Stmt} {layout : Layout}

/- A body with the code behind it returns in the end. -/
theorem seated_returning
    (hFunction : ctx.function = some sig)
    (hBody : Seated ctx layout)
    (hEnds : Closes body → Ends ctx layout) :
    Seated ctx (layout ++ returning sig body) ∧ Ends ctx (layout ++ returning sig body) := by
  unfold returning
  split
  · next hReturn =>
    rw [append_nil]
    exact ⟨hBody, hEnds (.inl hReturn)⟩
  · have hSound : Sound ctx.function.isSome ctx.base 0 (.plain .ret) := by
      rw [hFunction]
      exact sound_ret _
    rcases seated_of_end (level_leave hFunction) hSound rfl rfl with ⟨hSeated, hEnd⟩
    rw [← Context.base_of_function hFunction]
    exact ⟨hBody.append hSeated, hBody.append_ends hEnd⟩

/- The code before the body of a function. -/
def entering (entry : Generator.Entry) : Code :=
  [mark entry.label] ++ adjustStack .subsp entry.sig.localsSize

variable {entry : Generator.Entry} (hFunction : ctx.function = some entry.sig)
include hFunction

theorem level_entering :
    Level ctx.function.isSome ctx.base 0 (entering entry) ctx.base := by
  have hAdjust : Level ctx.function.isSome ctx.base 0 (adjustStack .subsp entry.sig.localsSize)
        (0 + max 0 entry.sig.localsSize.toInt) := level_subsp (Int.le_refl 0) _
  refine (level_mark (Int.le_refl 0) entry.label).append ?_
  rw [Int.zero_add] at hAdjust
  nth_rewrite 2 [Context.base_of_function hFunction]
  exact hAdjust

/- A function whose body has a layout is an island. -/
theorem exists_island
    (hBody : Seated ctx layout)
    (hIslands : layout.islands = [])
    (hEnds : Closes body → Ends ctx layout) :
    ∃ f : Island, f.sig = entry.sig ∧ f.label = entry.label ∧
        Layout.code [.island f] = entry.wrap body layout.code := by
  rcases seated_returning hFunction hBody hEnds with ⟨hSeated, hEnd⟩
  have hNone : Layout.islands (plot 0 (entering entry)
        ++ (layout ++ returning entry.sig body)) = [] := by
    rw [Layout.islands_append, Layout.islands_append, plot_islands, hIslands, returning_islands]
    rfl
  have hFlows : Flows ctx.function.isSome ctx.base [] (Layout.chart (plot 0 (entering entry)
          ++ (layout ++ returning entry.sig body))) none := by
    rw [Layout.chart_append]
    refine .append ?_ (hSeated.flows.relink hEnd.linked)
    rw [hEnd.enters]
    exact (level_entering hFunction).flows []
  rw [hFunction, Context.base_of_function hFunction] at hFlows
  refine ⟨{
    sig := entry.sig
    label := entry.label
    landing := entry.landing
    chart := Layout.chart (plot 0 (entering entry) ++ (layout ++ returning entry.sig body))
    solid := Layout.isSome_of_islands hNone
    starts := rfl
    flows := hFlows }, rfl, rfl, ?_⟩
  have hCode : Layout.code (plot 0 (entering entry) ++ (layout ++ returning entry.sig body)) =
        entering entry ++ (layout.code ++ if endsWithReturn body then []
              else adjustStack .addsp entry.sig.localsSize ++ [.plain .ret]) := by
    rw [Layout.code_append, Layout.code_append, plot_code, returning_code]
  rw [Layout.code_single]
  change _ ++ Layout.code _ ++ _ = _
  rw [hCode]
  simp only [Generator.Entry.wrap, entering, append_assoc, nil_append, cons_append]

end Functions

/- What the stream around a function sees of it. -/
theorem seated_island {ctx : Context}
    (hOutside : ctx.function = none)
    (f : Island) :
    Seated ctx [.island f] := by
  have hBase : ctx.base = 0 := by
    unfold Context.base
    rw [hOutside]
    rfl
  have hMark : Flows ctx.function.isSome ctx.base [f.landing]
      [(some ctx.base, mark f.landing)] (some ctx.base) :=
    Level.flows (level_mark ctx.base_nonneg f.landing) _
  have hJump : Flows ctx.function.isSome ctx.base [f.landing] [(some ctx.base, .jump .br f.landing)]
      (Chart.entry (some ctx.base) (Chart.foreign f.inner)) :=
    flows_jump ctx.base_nonneg rfl nofun mem_cons_self fun hNot => absurd rfl hNot
  have hOpen : Flows ctx.function.isSome ctx.base [f.landing] f.around (some ctx.base) := by
    unfold Island.around
    rw [← hBase]
    exact .append (.append hJump (.foreign _)) hMark
  have hChart : Layout.chart [.island f] = f.around := by
    rw [Layout.chart_cons, Layout.chart_nil, append_nil, Piece.chart]
  refine ⟨?_, ?_⟩
  · rw [hChart]
    refine hOpen.close fun target hTarget => ?_
    rw [mem_singleton.mp hTarget, hBase]
    exact ⟨mark f.landing, by simp [Island.around], rfl⟩
  · rw [hBase]
    rfl

end Compile

end Pep9
