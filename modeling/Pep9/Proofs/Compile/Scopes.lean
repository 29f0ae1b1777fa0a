import Pep9.Proofs.Compile.Allocation
import Pep9.Proofs.Compile.Uses

/-
  The names of a program. Labels and the places of functions
  are taken from the table of the top level one after the
  other, also those that are made while a function with a
  table of its own is compiled.

  Key theorems: `enter_parts`, `enter_leave_supplies`,
  `Emits.grows`, `Emits.kept`.
-/

namespace Pep9

open List Result
open Listing (Instruction Declaration Frame)
open Script (Expr Stmt IsIdentifier)

variable {exit start target : String} {stmt : Stmt} {test : Expr} {line : Int}

namespace Compile

variable {code : Code} {label stem name : String} {g' : Generator} {id : Nat}
  {params : List String} {body : List Stmt} {entry : Generator.Entry}

def labels (code : Code) : List String :=
  (code.map Instruction.label).filter (· ≠ "")

@[simp]
theorem labels_nil : labels [] = [] := rfl

@[simp]
theorem labels_append (first second : Code) :
    labels (first ++ second) = labels first ++ labels second := by
  simp [labels]

theorem labels_cons
    (i : Instruction)
    (code : Code) :
    labels (i :: code) =
      (if i.label = "" then [] else [i.label]) ++ labels code := by
  by_cases h : i.label = "" <;> simp [labels, h]

theorem mem_labels :
    label ∈ labels code ↔ label ≠ "" ∧ ∃ i ∈ code, i.label = label := by
  simp [labels, and_comm]

theorem labels_of_unlabelled (h : ∀ i ∈ code, i.label = "") :
    labels code = [] := by
  refine eq_nil_iff_forall_not_mem.mpr fun label hLabel => ?_
  rcases mem_labels.mp hLabel with ⟨hSome, i, hI, hEq⟩
  exact hSome (hEq ▸ h i hI)

@[simp]
theorem labels_jump
    (m : Isa.Mnemonic)
    (target : String) :
    labels [.jump m target] = [] := rfl

theorem labels_mark (h : label ≠ "") : labels [mark label] = [label] := by
  rw [labels_cons, labels_nil, append_nil]
  exact if_neg h

theorem labels_jump_mark {m : Isa.Mnemonic}
    (h : label ≠ "") :
    labels [.jump m target, mark label] = [label] := labels_mark h

/- The first instruction of a condition has its label. -/
theorem labels_condition {ctx : Context}
    (hLabel : label ≠ "")
    (h : ctx.conditionCode label exit test = .ok code) :
    labels code = [label] := by
  rcases conditionCode_parts h with ⟨parts⟩
  rcases parts.labelled with ⟨i, _, rfl, hFirst, hRest⟩
  rw [labels_cons, labels_of_unlabelled hRest, hFirst, if_neg hLabel, append_nil]

variable {g g₁ g₂ : Generator} {stmts : List Stmt}

theorem label_eq_ok (h : g.label stem id = .ok (label, g')) :
    ∃ table, g.table.generate stem id = .ok (label, table) ∧
      g' = { g with table := table } := by
  unfold Generator.label at h
  rcases seq h with ⟨⟨_, table⟩, hFound, hDone⟩
  cases hDone
  exact ⟨table, hFound, rfl⟩

/- All that happens when a function is entered. -/
structure EnterParts (g : Generator) (name : String) (params : List String)
    (body : List Stmt) (entry : Generator.Entry) (g' : Generator) where
  bound : SymbolTable
  landed : SymbolTable
  outside : g.inside = none
  new : ∀ sig ∈ g.functions, sig.name ≠ name
  label_eq : g.table.bindGlobal .label name = .ok (entry.label, bound)
  analyzed : analyzeFunction g.usual name params body = .ok entry.sig
  complete : (allocateFrame bound.child entry.sig).error = none
  table_eq : entry.table = (allocateFrame bound.child entry.sig).table
  landing_eq : bound.generate landingStem ((g.landings + 1 : Nat) : Int) =
      .ok (entry.landing, landed)
  after : g' =
      { g with
        table := landed
        inside := some ⟨entry.sig, entry.table⟩
        functions := g.functions ++ [entry.sig]
        frames :=
          g.frames ++ [⟨name, (allocateFrame bound.child entry.sig).decls⟩]
        arrays := g.arrays ++ Generator.arrayTargets entry.sig entry.table
        landings := g.landings + 1 }

/- What is made when a function is entered. -/
theorem enter_parts (h : g.enter name params body = .ok (entry, g')) :
    Nonempty (EnterParts g name params body entry g') := by
  unfold Generator.enter at h
  rcases seq h with ⟨_, hCheck, h₁⟩
  rcases seq h₁ with ⟨⟨_, bound⟩, hLabel, h₂⟩
  rcases seq h₂ with ⟨_, hSig, h₃⟩
  dsimp only at h₃
  split at h₃
  · cases h₃
  · next hComplete =>
    rcases seq h₃ with ⟨⟨_, landed⟩, hLanding, hDone⟩
    cases hDone
    unfold Generator.checkDefinition at hCheck
    split at hCheck
    · cases hCheck
    · next hOutside =>
      split at hCheck
      · cases hCheck
      · split at hCheck
        · cases hCheck
        · next hNew =>
          rw [Bool.not_eq_true, any_eq_false] at hNew
          exact ⟨{
            bound := bound
            landed := landed
            outside := by simpa using hOutside
            new := fun s hS => by simpa using hNew s hS
            label_eq := hLabel
            analyzed := hSig
            complete := hComplete
            table_eq := rfl
            landing_eq := hLanding
            after := rfl }⟩

/- The same function with the same bindings, or none. -/
inductive SameFunction : Option FunctionScope → Option FunctionScope → Prop where
  | outside : SameFunction none none
  | inside {f f' : FunctionScope} (hSig : f'.sig = f.sig) (hData : f'.table.data = f.table.data)
      (hLabels : f'.table.labels = f.table.labels) : SameFunction (some f) (some f')

/-
  Two states in which expressions have the same code. Names
  may have been taken and marks removed in between.
-/
structure Steady (g g' : Generator) : Prop where
  usual : g'.usual = g.usual
  data : g'.table.data = g.table.data
  labels : g'.table.labels = g.table.labels
  slicing : g'.slicing = g.slicing
  functions : g'.functions = g.functions
  frames : g'.frames = g.frames
  arrays : g'.arrays = g.arrays
  inside : SameFunction g.inside g'.inside

theorem SameFunction.refl (inside : Option FunctionScope) :
    SameFunction inside inside := by
  cases inside with
  | none => exact .outside
  | some => exact .inside rfl rfl rfl

theorem SameFunction.trans {first second third : Option FunctionScope}
    (h₁ : SameFunction first second)
    (h₂ : SameFunction second third) :
    SameFunction first third := by
  cases h₁ with
  | outside => exact h₂
  | inside hSig hData hLabels =>
    cases h₂ with
    | inside hSig' hData' hLabels' =>
      exact .inside (hSig'.trans hSig) (hData'.trans hData) (hLabels'.trans hLabels)

theorem SameFunction.isSome_eq {first second : Option FunctionScope}
    (h : SameFunction first second) :
    second.isSome = first.isSome := by
  cases h <;> rfl

namespace Steady

theorem refl (g : Generator) :
    Steady g g := ⟨rfl, rfl, rfl, rfl, rfl, rfl, rfl, .refl _⟩

theorem trans (h₁ : Steady g g₁) (h₂ : Steady g₁ g₂) : Steady g g₂ where
  usual := h₂.usual.trans h₁.usual
  data := h₂.data.trans h₁.data
  labels := h₂.labels.trans h₁.labels
  slicing := h₂.slicing.trans h₁.slicing
  functions := h₂.functions.trans h₁.functions
  frames := h₂.frames.trans h₁.frames
  arrays := h₂.arrays.trans h₁.arrays
  inside := h₁.inside.trans h₂.inside

/- Counting loops and conditionals changes nothing else. -/
theorem counted
    (h : Steady g g₁)
    (loops conds : Nat) :
    Steady g { g₁ with loops := loops, conds := conds } :=
  ⟨h.usual, h.data, h.labels, h.slicing, h.functions, h.frames, h.arrays, h.inside⟩

end Steady

section

variable (hStem : IsStem stem) (h : g.label stem id = .ok (label, g'))
include hStem h

theorem steady_label :
    Steady g g' ∧ Supplies g.table g'.table [label] ∧ Generated label := by
  rcases label_eq_ok h with ⟨_, hTable, rfl⟩
  rcases SymbolTable.generate_supplies hStem hTable with ⟨hSupplies, hGenerated, hData, hLabels⟩
  exact ⟨⟨rfl, hData, hLabels, rfl, rfl, rfl, rfl, .refl _⟩, hSupplies, hGenerated⟩

theorem label_nonempty :
    label ≠ "" := by
  rintro rfl
  exact ((steady_label hStem h).2.1.targets "" mem_cons_self).nonempty rfl

end

theorem steady_unmarkSpecial
    (g : Generator)
    (target : String) :
    Steady g (g.unmarkSpecial target) ∧
      Supplies g.table (g.unmarkSpecial target).table [] := by
  unfold Generator.unmarkSpecial
  split
  · next hInside =>
    exact ⟨⟨rfl, rfl, rfl, rfl, rfl, rfl, rfl, .refl _⟩, .none fun _ hUsed => hUsed⟩
  · next f hInside =>
    refine ⟨⟨rfl, rfl, rfl, rfl, rfl, rfl, rfl, ?_⟩, .refl _⟩
    rw [hInside]
    exact .inside rfl rfl rfl

theorem Plain.steady (h : Plain g stmt code g') :
    Steady g g' ∧ Supplies g.table g'.table [] := by
  cases h with
  | elided => exact steady_unmarkSpecial g _
  | pass | stored | element | expr | ret => exact ⟨.refl _, .refl _⟩

------------------------------------------------------------
-- Functions
------------------------------------------------------------

/- A state at which functions can be defined. -/
structure Generator.Ready (g : Generator) : Prop where
  global : ∀ b ∈ g.table.data, b.scope = .global
  defined : ∀ b ∈ g.table.labels, ∃ sig ∈ g.functions, sig.name = b.source

theorem Generator.Ready.steady
    (hReady : g.Ready)
    (h : Steady g g') :
    g'.Ready where
  global := by
    rw [h.data]
    exact hReady.global
  defined := by
    rw [h.labels, h.functions]
    exact hReady.defined

theorem isStem_landing : IsStem landingStem := ⟨'t', 'l', rfl, rfl, rfl⟩

theorem isStem_loop : IsStem loopStem := ⟨'w', 'h', rfl, rfl, rfl⟩

theorem isStem_loopEnd : IsStem loopEndStem := ⟨'e', 'w', rfl, rfl, rfl⟩

theorem isStem_cond : IsStem condStem := ⟨'i', 'f', rfl, rfl, rfl⟩

theorem isStem_else : IsStem elseStem := ⟨'e', 'l', rfl, rfl, rfl⟩

theorem isStem_condEnd : IsStem condEndStem := ⟨'e', 'i', rfl, rfl, rfl⟩

/-
  Labels that are taken in turn. Loops and conditionals may be
  counted behind them.
-/
inductive Takes : Generator → List String → Generator → Prop where
  | counted (g : Generator) (loops conds : Nat) :
      Takes g [] { g with loops := loops, conds := conds }
  | label {g g₁ g₂ : Generator} {stem label : String} {id : Nat} {more : List String}
      (hStem : IsStem stem) (hLabel : g.label stem id = .ok (label, g₁))
      (hMore : Takes g₁ more g₂) : Takes g (label :: more) g₂

section

variable {names : List String} (h : Takes g names g')
include h

theorem Takes.steady : Steady g g' := by
  induction h with
  | counted g loops conds => exact (Steady.refl g).counted loops conds
  | label hStem hLabel _ ih => exact (steady_label hStem hLabel).1.trans ih

theorem Takes.nonempty : ∀ n ∈ names, n ≠ "" := by
  induction h with
  | counted => simp
  | label hStem hLabel _ ih => exact forall_mem_cons.mpr ⟨label_nonempty hStem hLabel, ih⟩

theorem Takes.special_eq :
    g'.table.special = g.table.special := by
  induction h with
  | counted => rfl
  | label _ hLabel _ ih =>
    rcases label_eq_ok hLabel with ⟨_, hTable, rfl⟩
    rcases SymbolTable.generate_cases hTable with ⟨_, _, _, rfl⟩
    exact ih

end

theorem Guarded.takes (h : Guarded g line test body stmt start exit target g') :
    Takes g [start, exit] g' := by
  cases h with
  | loop hStart hExit => exact .label isStem_loop hStart (.label isStem_loopEnd hExit (.counted ..))
  | cond hStart hExit => exact .label isStem_cond hStart (.label isStem_condEnd hExit (.counted ..))

theorem Forked.takes {other : String}
    (h : Forked g start exit other g') :
    Takes g [start, exit, other] g' := by
  cases h with
  | labels hStart hExit hOther =>
    exact .label isStem_cond hStart
      (.label isStem_condEnd hExit (.label isStem_else hOther (.counted ..)))

theorem Guarded.named {P : String → Prop}
    (h : Guarded g line test body stmt start exit target g')
    (hNamed : stmt.Named P) :
    Script.NamedBlock P body := by
  cases h with
  | loop => exact hNamed.2
  | cond => exact hNamed.2.1

/- What holds of a function that is entered. -/
structure EnterFacts {g g' : Generator} {name : String} {params : List String}
    {body : List Stmt} {entry : Generator.Entry}
    (parts : EnterParts g name params body entry g') : Prop where
  signature : SignatureNames name params entry.sig
  label : Supplies g.table parts.bound [entry.label]
  bound_eq : parts.bound = g.table.bind ⟨name, entry.label, .label, .global⟩
  frame : BoundSlots name parts.bound.child (frameSlots entry.sig)
      (allocateFrame parts.bound.child entry.sig)
  landing : Supplies parts.bound parts.landed [entry.landing]
  landing_shape : Generated entry.landing
  landed_data : parts.landed.data = g.table.data
  landed_labels : parts.landed.labels = parts.bound.labels

theorem enter_facts
    (hReady : g.Ready)
    (hNamed : IsIdentifier name ∧ (∀ p ∈ params, IsIdentifier p) ∧
      params.Nodup ∧ Script.WellNamed body)
    (parts : EnterParts g name params body entry g') :
    EnterFacts parts := by
  rcases hNamed with ⟨hName, hParams, hNodup, hBody⟩
  have hNew : ∀ b ∈ g.table.bindings .label, b.source ≠ name := by
    intro b hB hSource
    rcases hReady.defined b hB with ⟨sig, hSig, hEq⟩
    exact parts.new sig hSig (hEq.trans hSource)
  rcases SymbolTable.bindGlobal_supplies hName hNew parts.label_eq with ⟨hLabel, hBound⟩
  have hData : parts.bound.data = g.table.data := by
    rw [hBound, (SymbolTable.bind_labels rfl).2]
  have hSig := analyzeFunction_names hBody parts.analyzed
  rcases SymbolTable.generate_supplies isStem_landing parts.landing_eq with
    ⟨hLanding, hShape, hLandedData, hLandedLabels⟩
  exact {
    signature := hSig
    label := hLabel
    bound_eq := hBound
    frame := allocateFrame_bound hName hParams hNodup (hData ▸ hReady.global) hSig parts.complete
    landing := hLanding
    landing_shape := hShape
    landed_data := hLandedData.trans hData
    landed_labels := hLandedLabels }

/- The arrays of a function are places of its own. -/
theorem arrayTargets_fresh {parts : EnterParts g name params body entry g'}
    (facts : EnterFacts parts) :
    ∀ target ∈ Generator.arrayTargets entry.sig entry.table, g.table.inUse target = false := by
  intro target hTarget
  rcases mem_map.mp hTarget with ⟨_, hSource, hEq⟩
  have hPlaced := mem_append_left (if entry.sig.hasReturn then [returnSource] else [])
    (mem_filter.mp hSource).1
  rw [← Signature.frameSources, ← frameSlots_frameSources] at hPlaced
  rcases mem_map.mp hPlaced with ⟨slot, hSlot, rfl⟩
  rcases facts.frame.places.found slot hSlot with ⟨d, hD, hFound⟩
  have hName : d.name = target := by
    rw [← hEq, SymbolTable.lookup?, parts.table_eq, hFound]
    rfl
  have hFresh := facts.frame.supplies.fresh d.name (mem_map_of_mem hD)
  rw [hName] at hFresh
  refine Bool.eq_false_iff.mpr fun hUsed => ?_
  rw [SymbolTable.child_inUse (facts.label.kept target hUsed)] at hFresh
  cases hFresh

/- The names of the places in some frames. -/
def frameNames (frames : List Frame) : List String :=
  frames.flatMap fun f => f.decls.map Declaration.name

/-
  The names that a whole function takes: its label, its
  places, its landing label and the labels of its body. The
  labels are made while the places are taken only in the
  table of the function; it is their shape that keeps them
  apart.
-/
theorem enter_leave_supplies {inner : List String}
    {parts : EnterParts g name params body entry g₁}
    (facts : EnterFacts parts)
    (hInner : Supplies g₁.table g₂.table inner)
    (hShape : ∀ n ∈ inner, Generated n) :
    Supplies g.table (g₂.leave entry).table (entry.label :: entry.landing :: inner
        ++ (allocateFrame parts.bound.child entry.sig).decls.map Declaration.name) := by
  have hTable : g₁.table = parts.landed := congrArg Generator.table parts.after
  rw [hTable] at hInner
  have hLabels : Supplies g.table g₂.table (entry.label :: entry.landing :: inner) :=
    (facts.label.trans facts.landing).trans hInner
  have hMerge : ∀ n, (g₂.leave entry).table.inUse n = true ↔
        (g₂.table.inUse n = true ∨ ∃ b ∈ entry.table.data, b.target = n) ∨
          ∃ b ∈ entry.table.labels, b.target = n := fun n => SymbolTable.merge_inUse
  have hGenerated : ∀ n ∈ entry.landing :: inner, Generated n := by
    intro n hN
    rcases mem_cons.mp hN with rfl | hN
    · exact facts.landing_shape
    · exact hShape n hN
  -- Names that are free in the table of the function are free outside.
  have hChild : ∀ n ∈ (allocateFrame parts.bound.child entry.sig).decls.map Declaration.name,
        parts.bound.inUse n = false := by
    intro n hN
    have hFresh := facts.frame.supplies.fresh n hN
    refine Bool.eq_false_iff.mpr fun hUsed => ?_
    rw [SymbolTable.child_inUse hUsed] at hFresh
    cases hFresh
  refine {
    nodup := ?_
    fresh := ?_
    taken := ?_
    kept := ?_
    targets := ?_ }
  · refine nodup_append.mpr ⟨hLabels.nodup, facts.frame.supplies.nodup, ?_⟩
    rintro _ hA _ hB rfl
    rcases mem_cons.mp hA with rfl | hA
    · have hTaken := facts.label.taken entry.label mem_cons_self
      rw [hChild _ hB] at hTaken
      cases hTaken
    · rcases mem_map.mp hB with ⟨d, hD, rfl⟩
      exact (facts.frame.shape d hD).not_generated (hGenerated _ hA)
  · intro n hN
    rcases mem_append.mp hN with hN | hN
    · exact hLabels.fresh n hN
    · refine Bool.eq_false_iff.mpr fun hUsed => ?_
      have hTaken := facts.label.kept n hUsed
      rw [hChild n hN] at hTaken
      cases hTaken
  · intro n hN
    rw [hMerge]
    rcases mem_append.mp hN with hN | hN
    · exact .inl (.inl (hLabels.taken n hN))
    · rcases mem_map.mp hN with ⟨d, hD, rfl⟩
      rw [parts.table_eq]
      exact .inl (.inr (facts.frame.places.bound d hD))
  · intro n hUsed
    rw [hMerge]
    exact .inl (.inl (hLabels.kept n hUsed))
  · intro n hN
    rcases mem_append.mp hN with hN | hN
    · exact hLabels.targets n hN
    · exact facts.frame.supplies.targets n hN

------------------------------------------------------------
-- Names of a Block
------------------------------------------------------------

/-
  What a block adds to the names of a program. Inside a
  function these are only labels that stand for no name.
-/
structure Grows (g : Generator) (code : Code) (g' : Generator) : Prop where
  names : ∃ frames, g'.frames = g.frames ++ frames ∧
        Supplies g.table g'.table (labels code ++ frameNames frames)
  inside : g.inside.isSome = true → Steady g g' ∧ ∀ n ∈ labels code, Generated n
  outside : g.inside = none → g'.inside = none
  ready : g'.Ready
  data : g'.table.data = g.table.data
  kept : ∀ b ∈ g.table.labels, b ∈ g'.table.labels
  added : ∀ b ∈ g'.table.labels, b ∈ g.table.labels ∨ b.target ∈ labels code
  arrays : ∃ more, g'.arrays = g.arrays ++ more ∧ ∀ target ∈ more, g.table.inUse target = false

namespace Grows

variable {first second : Code}

/- Code whose labels are taken from a table. -/
theorem of_steady
    (hReady : g.Ready)
    (hSteady : Steady g g₁)
    (hSupplies : Supplies g.table g₁.table (labels first))
    (hShape : ∀ n ∈ labels first, Generated n) :
    Grows g first g₁ where
  names := by
    refine ⟨[], ?_, ?_⟩
    · rw [hSteady.frames, append_nil]
    · rw [frameNames, flatMap_nil, append_nil]
      exact hSupplies
  inside := fun _ => ⟨hSteady, hShape⟩
  outside := by
    intro hOutside
    have hSame := hSteady.inside
    rw [hOutside] at hSame
    cases hInside : g₁.inside with
    | none => rfl
    | some =>
      rw [hInside] at hSame
      cases hSame
  ready := hReady.steady hSteady
  data := hSteady.data
  kept := fun b hB => hSteady.labels ▸ hB
  added := fun b hB => .inl (hSteady.labels ▸ hB)
  arrays := ⟨[], by rw [hSteady.arrays, append_nil], by simp⟩

/- The labels of both pieces of code are distinct. -/
theorem append
    (h₁ : Grows g first g₁)
    (h₂ : Grows g₁ second g₂) :
    Grows g (first ++ second) g₂ where
  names := by
    rcases h₁.names with ⟨frames₁, hFrames₁, hNames₁⟩
    rcases h₂.names with ⟨frames₂, hFrames₂, hNames₂⟩
    refine ⟨frames₁ ++ frames₂, ?_, (hNames₁.trans hNames₂).perm ?_⟩
    · rw [hFrames₂, hFrames₁, append_assoc]
    · rw [perm_iff_count]
      intro _
      simp only [labels_append, frameNames, flatMap_append, List.count_append]
      omega
  inside := by
    intro hInside
    rcases h₁.inside hInside with ⟨hSteady₁, hShape₁⟩
    rw [← hSteady₁.inside.isSome_eq] at hInside
    rcases h₂.inside hInside with ⟨hSteady₂, hShape₂⟩
    refine ⟨hSteady₁.trans hSteady₂, ?_⟩
    intro n hN
    rw [labels_append] at hN
    rcases mem_append.mp hN with hN | hN
    · exact hShape₁ n hN
    · exact hShape₂ n hN
  outside := fun h => h₂.outside (h₁.outside h)
  ready := h₂.ready
  data := h₂.data.trans h₁.data
  kept := fun b hB => h₂.kept b (h₁.kept b hB)
  added := by
    intro b hB
    rw [labels_append]
    rcases h₂.added b hB with hOld | hNew
    · rcases h₁.added b hOld with hOlder | hNew
      · exact .inl hOlder
      · exact .inr (mem_append_left _ hNew)
    · exact .inr (mem_append_right _ hNew)
  arrays := by
    rcases h₁.names with ⟨_, _, hNames⟩
    rcases h₁.arrays with ⟨more₁, hArrays₁, hFresh₁⟩
    rcases h₂.arrays with ⟨more₂, hArrays₂, hFresh₂⟩
    refine ⟨more₁ ++ more₂, ?_, ?_⟩
    · rw [hArrays₂, hArrays₁, append_assoc]
    · intro target hTarget
      rcases mem_append.mp hTarget with hTarget | hTarget
      · exact hFresh₁ target hTarget
      · refine Bool.eq_false_iff.mpr fun hUsed => ?_
        have hTaken := hNames.kept target hUsed
        rw [hFresh₂ target hTarget] at hTaken
        cases hTaken

/- Only the labels of the code count, in any order. -/
theorem congr {other : Code}
    (h : Grows g first g₁)
    (hPerm : (labels first).Perm (labels other)) :
    Grows g other g₁ where
  names := by
    rcases h.names with ⟨frames, hFrames, hNames⟩
    exact ⟨frames, hFrames, hNames.perm (hPerm.append_right _)⟩
  inside := by
    intro hInside
    rcases h.inside hInside with ⟨hSteady, hShape⟩
    exact ⟨hSteady, fun n hN => hShape n (hPerm.mem_iff.mpr hN)⟩
  outside := h.outside
  ready := h.ready
  data := h.data
  kept := h.kept
  added := fun b hB => (h.added b hB).imp_right hPerm.mem_iff.mp
  arrays := h.arrays

end Grows

/- Taking a label, as if its mark were emitted at once. -/
theorem grows_label
    (hReady : g.Ready)
    (hStem : IsStem stem)
    (h : g.label stem id = .ok (label, g')) :
    Grows g [mark label] g' ∧ label ≠ "" := by
  rcases steady_label hStem h with ⟨hSteady, hSupplies, hShape⟩
  have hSome := label_nonempty hStem h
  have hLabels := labels_mark hSome
  refine ⟨.of_steady hReady hSteady (hLabels ▸ hSupplies) ?_, hSome⟩
  rw [hLabels]
  intro _ hN
  exact mem_singleton.mp hN ▸ hShape

/- The same for labels that are taken in turn. -/
theorem Takes.grows {names : List String}
    (h : Takes g names g')
    (hReady : g.Ready) :
    ∃ taken, labels taken = names ∧ Grows g taken g' := by
  induction h with
  | counted g loops conds =>
    exact ⟨[], rfl, .of_steady hReady ((Steady.refl g).counted loops conds) (.refl _) (by simp)⟩
  | label hStem hLabel _ ih =>
    rcases grows_label hReady hStem hLabel with ⟨hFirst, hSome⟩
    rcases ih hFirst.ready with ⟨_, hNames, hGrows⟩
    refine ⟨_, ?_, hFirst.append hGrows⟩
    rw [labels_append, labels_mark hSome, hNames]
    rfl

/- The state in which the body of a function is compiled. -/
theorem enter_ready {parts : EnterParts g name params body entry g'}
    (hReady : g.Ready)
    (facts : EnterFacts parts) :
    g'.Ready where
  global := by
    have hTable := congrArg Generator.table parts.after
    rw [hTable, facts.landed_data]
    exact hReady.global
  defined := by
    have hTable := congrArg Generator.table parts.after
    have hFunctions := congrArg Generator.functions parts.after
    rw [hTable, hFunctions]
    intro b hB
    rw [facts.landed_labels, facts.bound_eq, (SymbolTable.bind_labels rfl).1] at hB
    rcases Bindings.mem_of_mem_set hB with rfl | hOld
    · exact ⟨entry.sig, mem_append_right _ mem_cons_self, facts.signature.name_eq⟩
    · rcases hReady.defined b hOld with ⟨sig, hSig, hName⟩
      exact ⟨sig, mem_append_left _ hSig, hName⟩

theorem labels_adjustStack
    (m : Isa.Mnemonic)
    (bytes : Int64) :
    labels (adjustStack m bytes) = [] := by
  unfold adjustStack
  split <;> rfl

theorem labels_wrap
    (hLabel : entry.label ≠ "")
    (hLanding : entry.landing ≠ "") :
    labels (entry.wrap body code) = entry.label :: labels code ++ [entry.landing] := by
  have hEnd : labels (if endsWithReturn body then []
          else adjustStack .addsp entry.sig.localsSize ++ [.plain .ret]) = [] := by
    split
    · rfl
    · rw [labels_append, labels_adjustStack]
      rfl
  rw [Generator.Entry.wrap, labels_append, labels_append, labels_append,
    labels_append, labels_adjustStack, hEnd, labels_jump_mark hLabel, labels_mark hLanding]
  simp

/- A function is a block of its own in the code around it. -/
theorem grows_define {parts : EnterParts g name params body entry g₁}
    (hReady : g.Ready)
    (facts : EnterFacts parts)
    (hBody : Grows g₁ code g₂) :
    Grows g (entry.wrap body code) (g₂.leave entry) := by
  have hInside : g₁.inside.isSome = true := by
    rw [congrArg Generator.inside parts.after]
    rfl
  rcases hBody.inside hInside with ⟨hSteady, hShape⟩
  rcases hBody.names with ⟨frames, hFrames, hNames⟩
  have hNone : frames = [] := by
    rw [hSteady.frames] at hFrames
    exact self_eq_append_right.mp hFrames
  rw [hNone, frameNames, flatMap_nil, append_nil] at hNames
  have hSupplies := enter_leave_supplies facts hNames hShape
  have hNonempty : ∀ n, IsTarget n → n ≠ "" := by
    rintro _ hN rfl
    exact hN.nonempty rfl
  have hLabel := hNonempty _ (facts.label.targets entry.label mem_cons_self)
  have hLanding := hNonempty _ (facts.landing.targets entry.landing mem_cons_self)
  have hMerge := SymbolTable.merge_bindings g₂.table entry.table
  have hLabels : g₂.table.labels = g.table.labels.set ⟨name, entry.label, .label, .global⟩ := by
    rw [hSteady.labels, congrArg Generator.table parts.after,
      facts.landed_labels, facts.bound_eq, (SymbolTable.bind_labels rfl).1]
  have hLabelled : labels (entry.wrap body code) = entry.label :: labels code ++ [entry.landing] :=
    labels_wrap hLabel hLanding
  refine {
    names := ⟨[⟨name, (allocateFrame parts.bound.child entry.sig).decls⟩], ?_, hSupplies.perm ?_⟩
    inside := ?_
    outside := fun _ => rfl
    ready := ⟨?_, ?_⟩
    data := ?_
    kept := ?_
    added := ?_
    arrays := ⟨_, ?_, arrayTargets_fresh facts⟩ }
  · change g₂.frames = _
    rw [hSteady.frames, congrArg Generator.frames parts.after]
  · rw [hLabelled, perm_iff_count]
    intro _
    simp only [frameNames, flatMap_cons, flatMap_nil,
      append_nil, List.count_append, count_cons, count_nil]
    omega
  · intro hSome
    rw [parts.outside] at hSome
    cases hSome
  · intro b hB
    exact hBody.ready.global b (hMerge.1 ▸ hB)
  · intro b hB
    exact hBody.ready.defined b (hMerge.2 ▸ hB)
  · exact hMerge.1.trans (hSteady.data.trans
      ((congrArg (fun x => x.table.data) parts.after).trans facts.landed_data))
  · intro b hB
    refine hMerge.2 ▸ hLabels ▸ ?_
    refine Bindings.mem_set_of_ne hB ?_
    rcases hReady.defined b hB with ⟨sig, hSig, hName⟩
    exact hName ▸ parts.new sig hSig
  · intro _ hB
    rw [hLabelled]
    rcases Bindings.mem_of_mem_set (hLabels ▸ hMerge.2 ▸ hB) with rfl | hOld
    · exact .inr mem_cons_self
    · exact .inl hOld
  · change g₂.arrays = _
    rw [hSteady.arrays, congrArg Generator.arrays parts.after]

theorem Plain.grows
    (h : Plain g stmt code g')
    (hReady : g.Ready) :
    Grows g code g' := by
  rcases h.steady with ⟨hSteady, hSupplies⟩
  have hLabels := labels_of_unlabelled h.emitted.unlabelled
  exact .of_steady hReady hSteady (hLabels ▸ hSupplies) (by simp [hLabels])

/- The names that the code of a block adds. -/
theorem Emits.grows
    (h : Emits g stmts code g')
    (hReady : g.Ready)
    (hNamed : Script.WellNamed stmts) :
    Grows g code g' := by
  induction h with
  | nil g => exact .of_steady hReady (.refl g) (.refl _) (by simp)
  | plain hFirst _ ih =>
    have hPlain := hFirst.grows hReady
    exact hPlain.append (ih hPlain.ready hNamed.2)
  | guarded hLabels hTest _ _ ihBody ihRest =>
    rcases hLabels.takes.grows hReady with ⟨_, hNames, hTaken⟩
    have hSome := hLabels.takes.nonempty
    simp only [forall_mem_cons] at hSome
    have hInner := ihBody hTaken.ready (hLabels.named hNamed.1)
    have hOuter := ihRest hInner.ready hNamed.2
    refine Grows.congr ((hTaken.append hInner).append hOuter) ?_
    simp only [labels_append, hNames, labels_condition hSome.1 hTest,
      labels_jump_mark hSome.2.1, perm_iff_count, List.count_append, count_cons,
      count_nil]
    intro _
    omega
  | condElse _ hLabels hTest _ _ _ ihBody ihElse ihRest =>
    rcases hLabels.takes.grows hReady with ⟨_, hNames, hTaken⟩
    have hSome := hLabels.takes.nonempty
    simp only [forall_mem_cons] at hSome
    have hInner := ihBody hTaken.ready hNamed.1.2.1
    have hSecond := ihElse hInner.ready hNamed.1.2.2
    have hOuter := ihRest hSecond.ready hNamed.2
    refine Grows.congr (((hTaken.append hInner).append hSecond).append hOuter) ?_
    simp only [labels_append, hNames, labels_condition hSome.1 hTest, labels_mark hSome.2.1,
      labels_jump_mark hSome.2.2.1, perm_iff_count, List.count_append, count_cons,
      count_nil]
    intro _
    omega
  | define hEnter _ _ ihBody ihRest =>
    rcases enter_parts hEnter with ⟨parts⟩
    have facts := enter_facts hReady hNamed.1 parts
    have hInner := hNamed.1.2.2.2
    have hDefined := grows_define hReady facts (ihBody (enter_ready hReady facts) hInner)
    exact hDefined.append (ihRest hDefined.ready hNamed.2)

------------------------------------------------------------
-- States of a Block
------------------------------------------------------------

/-
  What labels and marks leave as it is, and functions that are
  entered and left, holds behind a block if it holds before it.
-/
structure Kept (I : Generator → Prop) : Prop where
  steady : ∀ {g g' : Generator}, Steady g g' → I g → I g'
  enter : ∀ {g g' : Generator} {name : String} {params : List String}
      {body : List Stmt} {entry : Generator.Entry},
      EnterParts g name params body entry g' → IsIdentifier name →
        Script.WellNamed body → I g → I g'
  leave : ∀ {g : Generator} (entry : Generator.Entry), I g → I (g.leave entry)

theorem Emits.kept {I : Generator → Prop}
    (h : Emits g stmts code g')
    (hI : Kept I)
    (hNamed : Script.WellNamed stmts)
    (hStart : I g) :
    I g' := by
  induction h with
  | nil => exact hStart
  | plain hFirst _ ih => exact ih hNamed.2 (hI.steady hFirst.steady.1 hStart)
  | guarded hLabels _ _ _ ihBody ihRest =>
    have hTaken := hI.steady hLabels.takes.steady hStart
    exact ihRest hNamed.2 (ihBody (hLabels.named hNamed.1) hTaken)
  | condElse _ hLabels _ _ _ _ ihBody ihElse ihRest =>
    have hTaken := hI.steady hLabels.takes.steady hStart
    exact ihRest hNamed.2 (ihElse hNamed.1.2.2 (ihBody hNamed.1.2.1 hTaken))
  | define hEnter _ _ ihBody ihRest =>
    rcases enter_parts hEnter with ⟨parts⟩
    rcases hNamed.1 with ⟨hName, _, _, hInner⟩
    exact ihRest hNamed.2 (hI.leave _ (ihBody hInner (hI.enter parts hName hInner hStart)))

/- Functions with different names stay and are added. -/
structure Signed (g g' : Generator) : Prop where
  usual : g'.usual = g.usual
  kept : ∀ sig ∈ g.functions, sig ∈ g'.functions
  nodup : (g.functions.map Signature.name).Nodup → (g'.functions.map Signature.name).Nodup

theorem Signed.trans
    (h₁ : Signed g g₁)
    (h₂ : Signed g₁ g₂) :
    Signed g g₂ where
  usual := h₂.usual.trans h₁.usual
  kept := fun sig hSig => h₂.kept sig (h₁.kept sig hSig)
  nodup := fun h => h₂.nodup (h₁.nodup h)

theorem Steady.signed (h : Steady g g') : Signed g g' where
  usual := h.usual
  kept := fun _ hSig => h.functions ▸ hSig
  nodup := fun hNodup => h.functions ▸ hNodup

theorem EnterParts.signed
    (parts : EnterParts g name params body entry g')
    (hName : entry.sig.name = name) :
    Signed g g' where
  usual := by rw [parts.after]
  kept := by
    intro _ hSig
    rw [congrArg Generator.functions parts.after]
    exact mem_append_left _ hSig
  nodup := by
    intro hNodup
    rw [congrArg Generator.functions parts.after, map_append]
    refine nodup_append.mpr ⟨hNodup, nodup_singleton _, ?_⟩
    rintro _ hA _ hB rfl
    rcases mem_map.mp hA with ⟨sig, hSig, hEq⟩
    exact parts.new sig hSig (hEq.trans ((mem_singleton.mp hB).trans hName))

theorem Emits.signed
    (h : Emits g stmts code g')
    (hNamed : Script.WellNamed stmts) :
    Signed g g' := by
  refine h.kept ⟨fun hSteady hG => hG.trans hSteady.signed, ?_, ?_⟩ hNamed (Steady.refl g).signed
  · intro _ _ _ _ _ _ parts _ hInner hG
    exact hG.trans (parts.signed (analyzeFunction_names hInner parts.analyzed).name_eq)
  · exact fun _ hG => ⟨hG.usual, hG.kept, hG.nodup⟩

variable {ctx : Context}

/- What a context says of a name depends on its bindings. -/
theorem reference_eq_ok {ref : Reference}
    (h : ctx.reference name = .ok ref) :
    ∃ b, ctx.table.data.find name = some b ∧ ref = ⟨b.target, ctx.mode name b⟩ := by
  unfold Context.reference SymbolTable.lookup? at h
  split at h
  · next b hFound =>
    cases h
    exact ⟨b, hFound, rfl⟩
  · cases h

/- A function that can be called, with its label. -/
structure CalleeFacts (ctx : Context) (name : String) (given : Nat) (callee : Callee) : Prop where
  mem : callee.sig ∈ ctx.functions
  name_eq : callee.sig.name = name
  count : given = callee.sig.params.length
  bound : ∃ b ∈ ctx.table.labels, b.source = name ∧ b.target = callee.label

theorem callee_facts {given : Nat} {callee : Callee}
    (h : ctx.callee name given = .ok callee) :
    CalleeFacts ctx name given callee := by
  unfold Context.callee SymbolTable.labelTarget at h
  split at h
  · cases h
  · next hSig =>
    rcases seq h with ⟨_, hLabel, h₁⟩
    split at hLabel
    · next b hFound =>
      cases hLabel
      rcases Bindings.find_eq_some hFound with ⟨hB, hSource⟩
      split at h₁
      · next hCount =>
        cases h₁
        exact ⟨mem_of_find?_eq_some hSig, of_decide_eq_true (find?_some hSig :), hCount,
          b, hB, hSource, rfl⟩
      · cases h₁
    · cases hLabel

theorem dataTarget_eq_ok {t : SymbolTable}
    (h : t.dataTarget name = .ok target) :
    ∃ b, t.data.find name = some b ∧ b.target = target := by
  unfold SymbolTable.dataTarget at h
  split at h
  · next b hFound =>
    cases h
    exact ⟨b, hFound, rfl⟩
  · cases h

end Compile

end Pep9
