import Pep9.Proofs.Compile.Passing
import Pep9.Proofs.Compile.Scoping

/-
  Arrays as arguments. A call passes the address of an array,
  and the function that is called passes on what it was given;
  so all functions along a chain of calls find the elements
  where the owner of the array has them, and what they store
  there is stored in the array of the owner.

  Key theorems: `Denotes.word?`, `Denotes.element`,
  `Denotes.store`, `compile_aliases`.
-/

namespace Pep9

open List Result
open Isa (Mnemonic Addressing)
open Listing (Instruction Mode Program)
open Machine (obeyAll)
open Script (Expr Stmt wordOf)

variable {i : Instruction} {g next : Generator} {k : Nat} {line : Int}
  {others : List Script.Place}

namespace Compile

variable {id : String} {code offset : Code} {s : CallSite} {mode : Addressing} {position e : Expr}

/-
  The address of an array that was passed is still in the slot
  of the parameter, as it was when the function was entered.
-/
def Intact (value : String → UInt16) (entry : Machine) (ref : Reference) (m : Machine) : Prop :=
  ref.mode = .stackDeferredIndexed → m.memory.word (m.sp + value ref.target) =
      entry.memory.word (m.sp + value ref.target)

/-
  In an activation, with the place and the state of its entry,
  a reference is to an array with some base. A global array has
  the base of its symbol, and a local one is found from the base
  of the frame. A parameter has the array of its argument, which
  was passed by an activation in which the reference of the
  argument was to that array.
-/
inductive Denotes (p : Program) (value : String → UInt16) (limit : Nat)
    (routines : Code → Routine → Prop) : Nat → Machine → Reference → UInt16 → Prop where
  | static {first : Nat} {entry : Machine} {target : String} :
      Denotes p value limit routines first entry ⟨target, .indexed⟩ (value target)
  | framed {start : Code} {r : Routine} {entry : Machine} {d : Listing.Declaration}
      (hRoutine : routines start r) (hDecl : d ∈ r.decls) :
      Denotes p value limit routines start.length entry ⟨d.name, .stackIndexed⟩
        (entry.sp - wordOf r.sig.localsSize + value d.name)
  | passed {first : Nat} {entry m entered : Machine} {ref : Reference}
      {base : UInt16} {start stored rest : Code} {r : Routine}
      {s : CallSite} {front back : List Expr} {id name : String} {b : Binding}
      (hOwner : Denotes p value limit routines first entry ref base) (hRoutine : routines start r)
      (hLinked : Linked p value limit start r s) (hArgs : s.args = front ++ .name id :: back)
      (hRef : s.ctx.reference id = .ok ref)
      (hFront : argsCode s.ctx s.callee.firstSlot front = .ok stored)
      (hStores : s.stores = stored ++ rest)
      (hRun : Active p value first entry (s.before ++ stored).length m)
      (hIntact : Intact value entry ref m)
      (hCarries : Machine.CarriesAll value (s.remaining rest) m entered)
      (hParam : r.sig.params[front.length]? = some name) (hFound : r.data.find name = some b) :
      Denotes p value limit routines start.length entered ⟨b.target, .stackDeferredIndexed⟩ base

section Chains

variable {p : Program} {value : String → UInt16} {limit : Nat}
  {routines : Code → Routine → Prop} {ctx : Context} {first : Nat}
  {entry m : Machine} {ref : Reference} {base : UInt16}

/- An argument begins with what it refers to. -/
theorem nameArgument_head {slot : Int64}
    (hMade : ctx.nameArgument slot id = .ok code)
    (hRef : ctx.reference id = .ok ref) :
    ∃ i more, code = i :: more ∧
        (i.op = .known .movspa ∨ i.operand = .symbol ref.target) := by
  cases nameArgument_parts hMade with
  | base hSame | pointer hSame | word _ hSame =>
    cases hRef.symm.trans hSame
    exact ⟨_, _, rfl, .inr rfl⟩
  | offset => exact ⟨_, _, rfl, .inl rfl⟩

theorem Linked.argument_head {start stored rest : Code} {r : Routine}
    {front back : List Expr}
    (h : Linked p value limit start r s)
    (hArgs : s.args = front ++ .name id :: back)
    (hRef : s.ctx.reference id = .ok ref)
    (hFront : argsCode s.ctx s.callee.firstSlot front = .ok stored)
    (hStores : s.stores = stored ++ rest) :
    ∃ i behind, p.code = s.before ++ stored ++ i :: behind ∧
        (i.op = .known .movspa ∨ i.operand = .symbol ref.target) := by
  have hMade := h.stores
  rw [hArgs, hStores] at hMade
  have hRest := argsCode_behind hMade hFront
  rw [argsCode_cons] at hRest
  rcases seq hRest with ⟨_, hFirst, h₁⟩
  rcases seq h₁ with ⟨others, _, hDone⟩
  cases hDone
  rcases nameArgument_head hFirst hRef with ⟨i, more, rfl, hHead⟩
  refine ⟨i, more ++ others ++ adjustStack .subsp s.callee.sig.argBytes
      ++ .jump .call s.callee.label :: (s.callee.cleanUp ++ s.behind), ?_, hHead⟩
  rw [h.site, CallSite.code, CallSite.upTo, CallSite.jump, hStores]
  simp only [append_assoc, cons_append]

/-
  Where an instruction is about to use the array or the stack
  pointer, the reference stands for the base of the array.
-/
theorem Denotes.word?
    (hLinkage : Linkage p value routines)
    (h : Denotes p value limit routines first entry ref base) :
    ∀ {before flat behind : Code} {i : Instruction} {m : Machine},
      Active p value first entry before.length m → p.code = before ++ flat ++ i :: behind →
        Flat flat → (i.op = .known .movspa ∨ i.operand = .symbol ref.target) →
        Intact value entry ref m → ref.word? value m.sp m.memory = some base := by
  induction h with
  | static =>
    intro _ _ _ _ _ _ _ _ _ _
    rfl
  | @framed start r _ d hRoutine hDecl =>
    intro _ _ _ _ _ hRun hCode hFlat hUse _
    have hName := hLinkage.names start r hRoutine d hDecl
    have hBase := hRun.base hLinkage hRoutine hCode hFlat
      (hUse.imp_right fun hOperand => ⟨_, hName, hOperand⟩)
    have hRoomy := hLinkage.roomy start r hRoutine
    rw [hRoomy.localsSize_eq, Script.wordOf_ofNat, ← hBase]
    rfl
  | @passed _ _ m _ _ base start stored _ r s _ _ id _ _ _ hRoutine hLinked hArgs hRef hFront
      hStores hRun hIntact hCarries hParam hFound ih =>
    intro _ _ _ _ _ hLast hCode hFlat hUse hKept
    rcases hLinkage.params start r hRoutine _ _ _ hParam hFound with ⟨hName, hValue⟩
    have hBase := hLast.base hLinkage hRoutine hCode hFlat
      (hUse.imp_right fun hOperand => ⟨_, hName, hOperand⟩)
    -- The caller is about to store the base as the argument.
    have hWord : s.ctx.word? value m.sp m.memory (.name id) = some base := by
      rcases hLinked.argument_head hArgs hRef hFront hStores with ⟨j, further, hPlace, hHead⟩
      have hHere : p.code = s.before ++ stored ++ [] ++ j :: further := by
        rw [hPlace, append_nil]
      rw [word?_name hRef]
      exact ih hRun hHere flat_nil hHead hIntact
    have hPassed := hLinked.passed hArgs hFront hStores hWord hCarries
    have hSlot := hKept rfl
    rw [hBase, hValue, hPassed] at hSlot
    unfold Reference.word?
    rw [hBase, hValue]
    exact congrArg some hSlot

theorem ne_immediate_of_indexed {suffix : Mode}
    (hMode : suffix.addressing? = some mode)
    (hIndexed : suffix.isIndexed = true) :
    mode ≠ .immediate := by
  rintro rfl
  cases suffix <;> cases hMode
  cases hIndexed

theorem arrayReference_name {ref' : Reference}
    (hRef : ctx.reference id = .ok ref)
    (hArray : ctx.arrayReference (.name id) = .ok ref') :
    ref' = ref ∧ ref.mode.isIndexed = true ∧
      ∃ mode, ref.mode.addressing? = some mode := by
  rcases arrayReference_eq_ok hArray with ⟨_, hSame, hRef', hIndexed⟩
  cases hSame
  cases hRef.symm.trans hRef'
  rcases reference_eq_ok hRef with ⟨b, _, rfl⟩
  rcases ctx.mode_addressing id b with ⟨mode, hMode, _⟩
  exact ⟨rfl, hIndexed, mode, hMode⟩

------------------------------------------------------------
-- Assignments to Elements
------------------------------------------------------------

/-
  The value that is assigned: a number that is read, or that of
  an expression.
-/
def Context.result? (ctx : Context) (value : String → UInt16) (m : Machine)
    (e : Expr) : Option UInt16 :=
  match isInput e with
  | .ok true => (Machine.readNumber m.input).1.toOption.map UInt16.ofInt
  | _ => ctx.value? value m e

/- A word is changed, and no other byte of memory. -/
structure Writes (m : Machine) (address w : UInt16) (last : Machine) : Prop where
  word : last.memory.word address = w
  others : ∀ a, a ≠ address → a ≠ address + 1 → last.memory.byte a = m.memory.byte a

theorem writes_of_memory {address w : UInt16} {last : Machine}
    (h : last.memory = m.memory.setWord address w) :
    Writes m address w last where
  word := by
    rw [h]
    exact Machine.Memory.word_setWord ..
  others := by
    intro _ hFirst hSecond
    rw [h, Machine.Memory.byte_setWord, if_neg hSecond, if_neg hFirst]

/-
  The code of an assignment to an element of an array with some
  base: the value becomes the word at the base and twice the
  index, and no other byte changes. Only a number that cannot
  be read is not assigned.
-/
def Assigns (value : String → UInt16) (ctx : Context) (position e : Expr)
    (code : Code) (base : UInt16) (m : Machine) : Prop :=
  ∃ index, ctx.word? value m.sp m.memory position = some index ∧
      (∀ w, ctx.result? value m e = some w → ∃ last, Performs value code m last ∧
            Writes m (base + 2 * index) w last) ∧ (ctx.result? value m e = none →
        isInput e = .ok true ∧ ∃ last fault, obeyAll value code m = (last, some fault) ∧
              last.memory = m.memory)

theorem stmtCode_element {base : Expr}
    (h : stmtCode g (.assign line (.element base position) others e) =
        .ok (code, next)) :
    g.assignElement base position e = .ok code := by
  rw [stmtCode, located_eq_ok] at h
  unfold Generator.assignCode at h
  rcases seq h with ⟨_, _, h₁⟩
  rcases seq h₁ with ⟨_, hMade, hDone⟩
  cases hDone
  exact hMade

section Indexed

variable (hMode : ref.mode.addressing? = some mode) (hIndexed : ref.mode.isIndexed = true)
  (hWord : ref.word? value m.sp m.memory = some base)

include hMode hIndexed hWord

/- An element is addressed by the base and the index register. -/
theorem address_of_word? :
    m.address (value ref.target) mode = base + m.x := by
  unfold Reference.word? at hWord
  cases hRef : ref.mode with
  | indexed | stackIndexed | stackDeferredIndexed =>
    rw [hRef] at hMode hWord
    cases hMode
    cases hWord
    rfl
  | none | immediate | direct | stackRelative | reserved code =>
    rw [hRef] at hIndexed
    cases hIndexed

/- The offset of an element is added to the base of its array. -/
theorem indexCode_addresses (hOffset : ctx.indexCode position = .ok offset) :
    ∃ index next, ctx.word? value m.sp m.memory position = some index ∧
        Executes value offset m next ∧ next.a = m.a ∧
        next.address (value ref.target) mode = base + 2 * index := by
  rcases indexCode_executes value m hOffset with
    ⟨index, next, hIndex, hNext, hX, hA⟩
  refine ⟨index, next, hIndex, hNext, hA, ?_⟩
  rw [← hNext.sp, ← hNext.memory] at hWord
  rw [address_of_word? hMode hIndexed hWord, hX]

/- A number is read into the element, behind its offset. -/
theorem assigns_read
    (hReads : isInput e = .ok true)
    (hOffset : ctx.indexCode position = .ok offset) :
    Assigns value ctx position e
      (offset ++ [.of .deci (.symbol ref.target) ref.mode]) base m := by
  have hPlace := ne_immediate_of_indexed hMode hIndexed
  have hFitting : Fitting (.of .deci (.symbol ref.target) ref.mode) :=
    Machine.fitting_write rfl (by rintro ⟨⟩) hMode hPlace
  rcases indexCode_addresses hMode hIndexed hWord hOffset with
    ⟨index, next, hIndex, hNext, _, hAddress⟩
  have hObey := Machine.obey_deci value next (.symbol ref.target) (by rintro ⟨⟩) hMode hPlace
  rw [hNext.input] at hObey
  unfold Assigns Context.result?
  rw [hReads]
  refine ⟨index, hIndex, ?_⟩
  rcases hOutcome : Machine.readNumber m.input with ⟨fault | n, _⟩
  · rw [hOutcome] at hObey
    refine ⟨by rintro _ ⟨⟩, fun _ => ⟨rfl, ?_⟩⟩
    rw [Machine.obeyAll_append hNext.obeys, obeyAll, hObey]
    exact ⟨_, _, rfl, hNext.memory⟩
  · rw [hOutcome] at hObey
    refine ⟨?_, by rintro ⟨⟩⟩
    intro _ hW
    cases hW
    refine ⟨_, hNext.performs hFitting hObey, writes_of_memory ?_⟩
    rw [← hNext.memory, ← hAddress]
    rfl

/-
  A value is computed before the offset of the element, and
  stored behind it.
-/
theorem assigns_value {computed : Code}
    (hReads : isInput e = .ok false)
    (hComputed : exprCode ctx .a e = .ok computed)
    (hCalls : callsDefined e = false)
    (hOffset : ctx.indexCode position = .ok offset) :
    Assigns value ctx position e
      (computed ++ offset ++ [.of .stwa (.symbol ref.target) ref.mode]) base m := by
  have hPlace := ne_immediate_of_indexed hMode hIndexed
  have hFitting : Fitting (.of .stwa (.symbol ref.target) ref.mode) :=
    Machine.fitting_write rfl nofun hMode hPlace
  rcases (freeCases_valued value ctx).expr hComputed hCalls m with
    ⟨w, _, hValue, hMiddle, hRead⟩
  rw [resultRegister_a] at hRead
  rw [← hMiddle.sp, ← hMiddle.memory] at hWord
  rcases indexCode_addresses hMode hIndexed hWord hOffset with
    ⟨index, next, hIndex, hNext, hA, hAddress⟩
  rw [hMiddle.sp, hMiddle.memory] at hIndex
  have hBoth := hMiddle.append hNext
  have hObey := Machine.obey_store value next .a (.symbol ref.target) nofun hMode hPlace
  have hKept : Register.a.read next = w := hA.trans hRead
  unfold Assigns Context.result?
  rw [hReads]
  refine ⟨index, hIndex, ?_, ?_⟩
  · intro _ hW'
    cases hValue.symm.trans hW'
    refine ⟨_, hBoth.performs hFitting hObey, writes_of_memory ?_⟩
    rw [← hKept, ← hBoth.memory, ← hAddress]
    rfl
  · intro hNone
    cases hValue.symm.trans hNone

end Indexed

/-
  The code for an element of an array with some base: behind
  the code that loads the offset, the address of the last
  instruction is the base and twice the index.
-/
def LeadsTo (value : String → UInt16) (ctx : Context) (op : Mnemonic)
    (ref : Reference) (position : Expr) (code : Code) (base : UInt16) (m : Machine) : Prop :=
  ∃ offset index next mode, code = offset ++ [.of op (.symbol ref.target) ref.mode] ∧
      ref.mode.addressing? = some mode ∧ ctx.word? value m.sp m.memory position = some index ∧
      Executes value offset m next ∧ next.address (value ref.target) mode = base + 2 * index

variable {before behind : Code} (hLinkage : Linkage p value routines)
  (h : Denotes p value limit routines first entry ref base)
  (hRun : Active p value first entry before.length m)
  (hIntact : Intact value entry ref m)
include hLinkage h hRun hIntact

theorem Denotes.element {op : Mnemonic}
    (hRef : ctx.reference id = .ok ref)
    (hMade : ctx.elementCode op (.name id) position = .ok code)
    (hCode : p.code = before ++ code ++ behind) :
    LeadsTo value ctx op ref position code base m := by
  unfold Context.elementCode at hMade
  rcases seq hMade with ⟨ref', hArray, h₁⟩
  rcases seq h₁ with ⟨offset, hOffset, hDone⟩
  rcases arrayReference_name hRef hArray with ⟨rfl, hIndexed, mode, hMode⟩
  cases hDone
  have hPlace : p.code = before ++ offset ++ .of op (.symbol ref'.target) ref'.mode :: behind := by
    rw [hCode]
    simp only [append_assoc, cons_append, nil_append]
  have hWord := h.word? hLinkage hRun hPlace ((joined_flat ctx).index hOffset) (.inr rfl) hIntact
  rcases indexCode_addresses hMode hIndexed hWord hOffset with
    ⟨index, next, hIndex, hNext, _, hAddress⟩
  exact ⟨offset, index, next, mode, rfl, hMode, hIndex, hNext, hAddress⟩

/- An assignment to an element is one to that of the owner. -/
theorem Denotes.store
    (hRef : g.context.reference id = .ok ref)
    (hMade :
      stmtCode g (.assign line (.element (.name id) position) others e) = .ok (code, next))
    (hCalls : callsDefined e = false)
    (hCode : p.code = before ++ code ++ behind) :
    Assigns value g.context position e code base m := by
  rcases assignElement_eq_ok (stmtCode_element hMade) with ⟨_, _, hArray, hOffset, hForm⟩
  rcases arrayReference_name hRef hArray with ⟨rfl, hIndexed, _, hMode⟩
  have hFlat := (joined_flat g.context).index hOffset
  rcases hForm with ⟨hReads, rfl⟩ | ⟨hReads, _, hComputed, rfl⟩
  · rw [← append_assoc, append_assoc] at hCode
    have hWord := h.word? hLinkage hRun hCode hFlat (.inr rfl) hIntact
    exact assigns_read hMode hIndexed hWord hReads hOffset
  · rw [← append_assoc, append_assoc] at hCode
    have hBoth := (joined_flat g.context).append
      ((freeCases_flat g.context).expr hComputed hCalls) hFlat
    have hWord := h.word? hLinkage hRun hCode hBoth (.inr rfl) hIntact
    exact assigns_value hMode hIndexed hWord hReads hComputed hCalls hOffset

end Chains

/-
  A function of a script, with the code of the program before
  that of the function.
-/
structure IsRoutine (options : Options) (stmts : List Stmt)
    (compiled : Compiled) (sigs : List Signature) (start : Code) (r : Routine) : Prop where
  of : ∃ d ∈ definitions stmts, r.Of options.usual compiled.program.frames compiled.table.labels
        sigs d
  code : ∃ rest, compiled.program.code = start ++ (r.head ++ r.body) ++ rest

variable {value : String → UInt16}

section Programs

variable {options : Options} {stmts : List Stmt} {compiled : Compiled}
  {parts : Parts options .empty stmts compiled}
  {layout : Layout} {start : Code} {r : Routine}

abbrev Parts.Has (parts : Parts options .empty stmts compiled) : Code → Routine → Prop :=
  IsRoutine options stmts compiled parts.final.functions

theorem names_of_fits {usual : Int64} {defined : List Definition}
    {islands : List Island}
    (h : List.Forall₂ (Fits usual) defined islands) :
    defined.map Definition.name = (islands.map Island.binding).map Binding.source := by
  induction h with
  | nil => rfl
  | cons hFits _ ih =>
    rw [map_cons, map_cons, map_cons, ih]
    exact congrArg (· :: _) hFits.name_eq.symm

theorem IsRoutine.mark_at (h : parts.Has start r) :
    compiled.program.code[start.length]? = some (mark r.label) := by
  rcases h.code with ⟨_, hCode⟩
  rw [hCode, append_assoc, getElem?_append_right (Nat.le_refl _), Nat.sub_self]
  rfl

theorem IsRoutine.label_ne
    (facts : Facts parts)
    (h : parts.Has start r) :
    r.label ≠ "" := by
  rcases h.of with ⟨_, _, hOf⟩
  exact (mem_labels.mp (facts.functions _ hOf.bound)).1

theorem IsRoutine.place
    (facts : Facts parts)
    (h : parts.Has start r)
    (hAt : compiled.program.code[k]? = some i)
    (hLabel : i.label = r.label) :
    k = start.length :=
  place_unique facts.labels_nodup hAt h.mark_at hLabel (hLabel ▸ h.label_ne facts)

variable (hNodup : (compiled.table.labels.map Binding.source).Nodup) (whole : Whole parts layout)

include hNodup whole

/- No two functions of a script have the same name. -/
theorem definition_eq {d d' : Definition}
    (hD : d ∈ definitions stmts)
    (hD' : d' ∈ definitions stmts)
    (hName : d.name = d'.name) :
    d = d' := by
  rw [whole.labels, ← names_of_fits whole.functions] at hNodup
  exact inj_on_of_nodup_map hNodup hD hD' hName

/- The code of a function can be followed from its start. -/
theorem IsRoutine.stream
    (facts : Facts parts)
    (h : parts.Has start r) :
    ∃ inside, Stream compiled.program.code (frameNames compiled.program.frames)
        inside start.length (some r.sig.localsSize) := by
  rcases h.of with ⟨d, hD, hOf⟩
  rcases whole.exists_island hOf.bound with ⟨f, _, _, hLayout, hBinding⟩
  have hIsland : f ∈ layout.islands := by
    rw [Layout.mem_islands, hLayout]
    exact mem_append_right _ mem_cons_self
  rcases whole.definition_of_island hIsland with ⟨_, hD', hFits⟩
  have hName : d.name = f.sig.name := congrArg Binding.source hBinding
  have hLabel : r.label = f.label := congrArg Binding.target hBinding
  cases definition_eq hNodup whole hD hD' (hName.trans hFits.name_eq)
  have hSig : r.sig = f.sig := Except.ok.inj (hOf.analyzed.symm.trans hFits.analyzed)
  have hSegment := (whole.segment_iff facts hLayout).mpr ⟨rfl, rfl⟩
  have hPlace := h.place facts hSegment.starts hLabel.symm
  rw [← hPlace, hSig]
  exact ⟨_, whole.stream_function facts hLayout hSegment⟩

variable {calls : List Call} {returned : List (Option Expr)}
  (hSigs : (parts.final.functions.map Signature.name).Nodup)
  (hScoped : Scoped parts.outlook (definitions stmts) none (opened stmts) (definitions stmts)
    calls returned compiled.program.code)

include hSigs hScoped

/- What is called is a function of the script. -/
theorem Outlook.Makes.routine {s : CallSite}
    (h : parts.outlook.Makes s) :
    ∃ start r, parts.Has start r ∧ s.callee = ⟨r.sig, r.label⟩ := by
  rcases (callee_facts h.callee_eq).bound with ⟨b, hB, hSource, _⟩
  rcases h.sight.calls b hB with ⟨_, hOuter, hSame, _⟩
  rcases whole.exists_island hOuter with ⟨f, _, _, hLayout, rfl⟩
  have hIsland : f ∈ layout.islands := by
    rw [Layout.mem_islands, hLayout]
    exact mem_append_right _ mem_cons_self
  rcases whole.definition_of_island hIsland with ⟨d, hD, hFits⟩
  rcases hScoped.routines d hD with ⟨r, start, rest, hOf, hCode, _⟩
  have hName : s.function = d.name := (hSame.trans hSource).symm.trans hFits.name_eq
  exact ⟨start, r, ⟨⟨d, hD, hOf⟩, rest, hCode⟩, h.callee_of_name hNodup hSigs hOf hName⟩

/- The program and its functions are linked. -/
theorem linkage_of_parts {bytes : List UInt8}
    (hNamed : Script.WellNamed stmts)
    (facts : Facts parts)
    (hImage : Assembly.Image compiled.program value bytes)
    (hRoomy :
      ∀ d ∈ definitions stmts, ∀ sig,
        analyzeFunction options.usual d.name d.params d.body = .ok sig → sig.Roomy) :
    Linkage compiled.program value parts.Has where
  fitting := (facts.ready hNamed).fitting
  moves := fun i => whole.moves
  label := by
    intro k i hAt hSome
    exact hImage.label _ i _ (code_split hAt).1 hSome
  lands := by
    intro _ hI _ hOp hForm
    rcases facts.jump hI hOp hForm with ⟨_, hTarget, hOperand⟩
    rcases mem_labels.mp hTarget with ⟨hSome, j, hJ, rfl⟩
    rcases mem_iff_getElem?.mp hJ with ⟨k, hK⟩
    exact ⟨k, j, hK, hSome, hOperand⟩
  calls := by
    intro i hI hOp
    rcases append_of_mem hI with ⟨before, behind, hSplit⟩
    rcases hScoped.calls with ⟨_, _, hListed, hSites⟩
    rcases hListed.site hSplit hOp with ⟨s, hS, _, rfl, _⟩
    have hMade := (hSites s (mem_of_getElem? hS)).makes
    rcases hMade.routine hNodup whole hSigs hScoped with ⟨start, r, hR, hCallee⟩
    exact ⟨start, r, hR, congrArg (Listing.Operand.symbol ∘ Callee.label) hCallee⟩
  entry := fun start r hR k i => hR.place facts
  stream := fun start r hR => hR.stream hNodup whole facts
  roomy := by
    intro _ r hR
    rcases hR.of with ⟨d, hD, hOf⟩
    exact hRoomy d hD r.sig hOf.analyzed
  names := by
    intro _ _ hR _ hD
    rcases hR.of with ⟨_, _, hOf⟩
    exact mem_flatMap.mpr ⟨_, hOf.framed, mem_map_of_mem hD⟩
  params := by
    intro _ r hR _ _ _ hParam hFound
    rcases hR.of with ⟨d, hD, hOf⟩
    rcases hOf.param hParam with ⟨_, hDecl, hSame⟩
    cases hFound.symm.trans hSame
    refine ⟨mem_flatMap.mpr ⟨_, hOf.framed, mem_map_of_mem hDecl⟩, ?_⟩
    rw [← (hRoomy d hD r.sig hOf.analyzed).wordOf_offset]
    exact hImage.equate _ (.inr ⟨_, hOf.framed, hDecl⟩) rfl

end Programs

------------------------------------------------------------
-- Aliases
------------------------------------------------------------

/- The function in whose body an instruction stands, if any. -/
def Houses (routines : Code → Routine → Prop) (home : Option Routine)
    (before : Code) (i : Instruction) (behind : Code) : Prop :=
  ∀ r ∈ home, Stands r before i behind ∧ ∃ start, routines start r

/-
  What holds of arrays as arguments in a program whose names
  stand for some words. The calls in its code are those of the
  source, one after the other, and go to functions of the
  program; the references in them and in all instructions that
  index are those of their scope. Activations are runs of
  the machine, and whatever the machine does while it finds the
  instructions of the program belongs to one, calls and returns
  apart.

  In an activation in which a reference is to an array, as long
  as the address that was passed is intact: an instruction that
  has the mode of the reference uses the base of the array and
  the index register; the code for an element, whatever its
  last instruction, leads to the base and twice the index; and
  an assignment to an element changes the word there to the
  value, if that has no calls of functions, and no other byte.
-/
structure Aliases (p : Program) (value : String → UInt16) (limit : Nat)
    (routines : Code → Routine → Prop) (calls : List Call) : Prop where
  count : callCount p.code = calls.length
  calls : ∀ before i behind, p.code = before ++ i :: behind → i.op = .known .call →
        ∃ start r s home, calls[callCount before]? = some s.toCall ∧
            routines start r ∧ Linked p value limit start r s ∧
            before = s.upTo ∧ i = .jump .call s.callee.label ∧
            Houses routines home before i behind ∧ Resolves p home s.ctx
  subscripts : ∀ before i behind, p.code = before ++ i :: behind → i.mode.isIndexed = true →
        ∃ home ctx id ref, Houses routines home before i behind ∧ Resolves p home ctx ∧
            ctx.reference id = .ok ref ∧ i.operand = .symbol ref.target ∧ i.mode = ref.mode
  runs : ∀ first k entry m, Active p value first entry k m → ∃ n, Machine.Steps n entry m
  follows : ∀ (first k : Nat) entry m i next, Active p value first entry k m → p.code[k]? = some i →
      i.op ≠ .known .call → i.op ≠ .known .ret → Machine.Carries value i m next →
      next.halted = false → ∃ n, Active p value first entry n next
  enters : ∀ (k : Nat) i m next, p.code[k]? = some i → i.op = .known .call →
      Machine.Carries value i m next → ∃ start r, routines start r ∧ i.operand = .symbol r.label ∧
            Active p value start.length next start.length next
  addresses : ∀ (first k : Nat) entry m ref base i mode,
      Denotes p value limit routines first entry ref base → Active p value first entry k m →
      Intact value entry ref m → p.code[k]? = some i → i.operand = .symbol ref.target →
      i.mode = ref.mode → i.mode.addressing? = some mode →
        m.address (value ref.target) mode = base + m.x
  elements : ∀ first entry m ref base (ctx : Context) op id position before code behind,
      Denotes p value limit routines first entry ref base →
      Active p value first entry before.length m → Intact value entry ref m →
      ctx.reference id = .ok ref → ctx.elementCode op (.name id) position = .ok code →
      p.code = before ++ code ++ behind → LeadsTo value ctx op ref position code base m
  stores : ∀ first entry m ref base (g : Generator) line id position others e
      before code next behind, Denotes p value limit routines first entry ref base →
      Active p value first entry before.length m → Intact value entry ref m →
      g.context.reference id = .ok ref →
      stmtCode g (.assign line (.element (.name id) position) others e) = .ok (code, next) →
      callsDefined e = false → p.code = before ++ code ++ behind →
        Assigns value g.context position e code base m

theorem Denotes.isIndexed {p : Program} {limit first : Nat}
    {routines : Code → Routine → Prop} {entry : Machine} {ref : Reference}
    {base : UInt16}
    (h : Denotes p value limit routines first entry ref base) :
    ref.mode.isIndexed = true := by
  cases h <;> rfl

/- An instruction with the mode of a reference uses its array. -/
theorem Denotes.address {p : Program} {limit first : Nat}
    {routines : Code → Routine → Prop} {entry m : Machine} {ref : Reference}
    {base : UInt16}
    (hLinkage : Linkage p value routines)
    (h : Denotes p value limit routines first entry ref base)
    (hRun : Active p value first entry k m)
    (hIntact : Intact value entry ref m)
    (hAt : p.code[k]? = some i)
    (hOperand : i.operand = .symbol ref.target)
    (hMode : ref.mode.addressing? = some mode) :
    m.address (value ref.target) mode = base + m.x := by
  rcases code_split hAt with ⟨hSplit, hLength⟩
  rw [← hLength] at hRun
  rw [← append_nil (p.code.take k)] at hSplit
  exact address_of_word? hMode h.isIndexed
    (h.word? hLinkage hRun hSplit flat_nil (.inr hOperand) hIntact)

/- What an instruction refers to is resolved in its scope. -/
theorem Sited.housed {options : Options} {stmts : List Stmt}
    {compiled : Compiled} {parts : Parts options .empty stmts compiled}
    {ctx : Context} {before behind : Code}
    (facts : Facts parts)
    (hCode : compiled.program.code = before ++ i :: behind)
    (h : Sited parts.outlook (definitions stmts) none ctx before i behind) :
    ∃ home, Houses parts.Has home before i behind ∧ Resolves compiled.program home ctx := by
  rcases h with ⟨_, hHomed, _, hHome⟩
  rcases hHome with rfl | ⟨r, rfl, hStands, d, hD, hOf⟩
  · exact ⟨none, nofun, hHomed.resolves facts nofun⟩
  · have hRoutine : ∃ start, parts.Has start r := by
      rcases hStands with ⟨start, _, _, rest, rfl, hBody, rfl⟩
      refine ⟨start, ⟨d, hD, hOf⟩, rest, ?_⟩
      rw [hCode, hBody]
      simp only [append_assoc, cons_append]
    refine ⟨some r, ?_, ?_⟩
    · rintro _ ⟨⟩
      exact ⟨hStands, hRoutine⟩
    · refine hHomed.resolves facts ?_
      rintro _ ⟨⟩
      exact ⟨d, hOf⟩

/-
  In every program that compiles and assembles, and whose frames
  fit, arrays that are passed along chains of calls are those of
  their owners; and the code of all statements is in the
  program, made where names are resolved as in their scope.
-/
theorem compile_aliases {options : Options} {source : String}
    {stmts : List Stmt} {compiled : Compiled} {layout : Listing.Layout}
    {known : Assembly.Symbols} {object : Assembly.Object}
    (hParsed : Script.parseSource source = .ok stmts)
    (hCompiled : compile options source = .ok compiled)
    (hHeader : layout.comments = true → '\n' ∉ options.source.toList)
    (hAssembled :
      Assembly.assemble .empty (compiled.program.listing layout) = (known, .ok object))
    (hRoomy :
      ∀ d ∈ definitions stmts, ∀ sig,
        analyzeFunction options.usual d.name d.params d.body = .ok sig → sig.Roomy) :
    ∃ sigs,
      (∀ s ∈ flatten 0 stmts,
        Produced (Resolves compiled.program none)
          compiled.program.code s.stmt) ∧
      (∀ d ∈ definitions stmts, ∃ start r,
        IsRoutine options stmts compiled sigs start r ∧
        r.sig.name = d.name ∧
        r.sig.params = d.params ∧
        ∀ s ∈ flatten 0 d.body,
          Produced (Resolves compiled.program (some r)) r.body s.stmt) ∧
      Aliases compiled.program known.value object.bytes.length
        (IsRoutine options stmts compiled sigs) (callsOf [] stmts) := by
  rcases compile_generate hCompiled with ⟨_, hParsed', hGenerated⟩
  cases hParsed.symm.trans hParsed'
  have hNamed := Script.parseSource_wellNamed hParsed
  rcases generate_allocated hGenerated with ⟨parts, hAllocated⟩
  have facts := facts_of_parts parts hNamed
  have hImage := facts.image hNamed hHeader hAssembled
  have hNodup := labels_nodup_of_allocated hAllocated
  rcases exists_whole hNamed parts with ⟨_, whole⟩
  have hSigs := signatures_nodup hNamed parts
  have hScoped := scoped_of_parts hNamed parts hAllocated
  have hLinkage := linkage_of_parts hNodup whole hSigs hScoped hNamed facts hImage hRoomy
  rcases hScoped.calls with ⟨sites, hCalls, hListed, hSites⟩
  refine ⟨parts.final.functions, ?_, ?_, ⟨?_, ?_, ?_, fun _ _ _ _ hRun => hRun.steps,
    ?_, ?_, ?_, ?_, ?_⟩⟩
  · intro _ hS
    refine (hScoped.produced _ (mem_map_of_mem hS)).mono ?_
    exact fun ctx hHomed => hHomed.resolves facts nofun
  · intro d hD
    rcases hScoped.routines d hD with ⟨r, start, rest, hOf, hCode, hBody⟩
    refine ⟨start, r, ⟨⟨d, hD, hOf⟩, rest, hCode⟩, hOf.name_eq,
      hOf.params_eq, fun s hS => (hBody s hS).mono fun ctx hHomed => ?_⟩
    refine hHomed.resolves facts ?_
    rintro _ ⟨⟩
    exact ⟨d, hOf⟩
  · rw [hListed.count, ← hCalls, length_map]
  · intro before i behind hSplit hOp
    rcases hListed.site hSplit hOp with ⟨s, hS, rfl, rfl, rfl⟩
    have hCall := hSites s (mem_of_getElem? hS)
    rcases hCall.sited.housed facts hSplit with ⟨home, hHouses, hResolves⟩
    rcases hCall.makes.routine hNodup whole hSigs hScoped with ⟨start, r, hR, hCallee⟩
    rcases hR.of with ⟨_, _, hOf⟩
    rcases hR.code with ⟨_, hCode⟩
    refine ⟨start, r, s, home, ?_, hR, hCall.makes.linked hNamed facts hImage hOf hCode hCallee
      hSplit (hLinkage.roomy start r hR), rfl, rfl, hHouses, hResolves⟩
    rw [← hCalls, getElem?_map, hS]
    rfl
  · intro before i behind hSplit hIndexed
    rcases hScoped.subscripts before i behind hSplit with ⟨ctx, hSited, hSubscript⟩
    rcases hSited.housed facts hSplit with ⟨home, hHouses, hResolves⟩
    rcases hSubscript hIndexed with ⟨id, ref, hRef, hOperand, hMode⟩
    exact ⟨home, ctx, id, ref, hHouses, hResolves, hRef, hOperand, hMode⟩
  · intro _ _ _ _ _ _ hRun hAt hCall hRet hCarries hGoes
    exact hRun.follow hLinkage hAt hCall hRet hCarries hGoes
  · intro _ _ _ _ hAt hCall hCarries
    exact Active.enter hLinkage hAt hCall hCarries
  · intro _ _ _ _ _ _ _ _ h hRun hIntact hAt hOperand hSame hMode
    exact h.address hLinkage hRun hIntact hAt hOperand (hSame ▸ hMode)
  · intro _ _ _ _ _ _ _ _ _ _ _ _ h hRun hIntact hRef hMade hCode
    exact h.element hLinkage hRun hIntact hRef hMade hCode
  · intro _ _ _ _ _ _ _ _ _ _ _ _ _ _ _ h hRun hIntact hRef hMade hCalled hCode
    exact h.store hLinkage hRun hIntact hRef hMade hCalled hCode

/-
  A function that is called with an array of the top level, and
  calls itself with that array and with one of its own.
-/
def passing : String :=
  "def f(a_, k):\n    w_ = [1, 2]\n    if k > 0:\n"
    ++ "        f(a_, 0)\n        f(w_, 0)\n    a_[k] = a_[0] + 5\n"
    ++ "v_ = [0] * 4\nf(v_, 3)\nprint(v_[3])\n"

/- Two instructions go through the parameter. -/
theorem compile_aliases_passing :
    ∃ stmts compiled known object,
      Script.parseSource passing = .ok stmts ∧ compile ⟨0, ""⟩ passing = .ok compiled ∧
        Assembly.assemble .empty (compiled.program.listing ⟨false, 0⟩) = (known, .ok object) ∧
        (compiled.program.code.map Instruction.mode).count .stackDeferredIndexed = 2 ∧
        ∃ sigs,
          (∀ s ∈ flatten 0 stmts,
            Produced (Resolves compiled.program none)
              compiled.program.code s.stmt) ∧
          (∀ d ∈ definitions stmts, ∃ start r,
            IsRoutine ⟨0, ""⟩ stmts compiled sigs start r ∧
            r.sig.name = d.name ∧
            r.sig.params = d.params ∧
            ∀ s ∈ flatten 0 d.body,
              Produced (Resolves compiled.program (some r)) r.body s.stmt) ∧
          Aliases compiled.program known.value object.bytes.length
            (IsRoutine ⟨0, ""⟩ stmts compiled sigs) (callsOf [] stmts) := by
  have hProgram : (compile ⟨0, ""⟩ passing).toOption.any (fun compiled =>
        (compiled.program.code.map Instruction.mode).count .stackDeferredIndexed = 2 ∧
          Assembly.Writable compiled.program) =
        true := by
    decide +kernel
  have hFrames : (Script.parseSource passing).toOption.any (fun stmts =>
        (definitions stmts).all fun d =>
          (analyzeFunction (Options.usual ⟨0, ""⟩) d.name d.params d.body).toOption.all fun sig =>
              (∀ l ∈ sig.locals, 0 < l.size) ∧ sig.frameBytes ≤ Machine.memorySize) =
        true := by
    decide +kernel
  rcases Result.any_eq_true.mp hProgram with ⟨compiled, hCompiled, hBoth⟩
  rcases of_decide_eq_true hBoth with ⟨hCount, hWritable⟩
  rcases Result.any_eq_true.mp hFrames with ⟨stmts, hParsed, hAll⟩
  have hWidth : (⟨false, 0⟩ : Listing.Layout).width ≤ Listing.Layout.widest := by
    decide
  rcases Assembly.assemble_of_width hWritable hWidth with ⟨known, object, hAssembled, _⟩
  refine ⟨stmts, compiled, known, object, hParsed, hCompiled, hAssembled,
    hCount, compile_aliases hParsed hCompiled nofun hAssembled ?_⟩
  intro d hD _ hSig
  have hFits := all_eq_true.mp hAll d hD
  rw [hSig] at hFits
  exact ⟨(of_decide_eq_true hFits).1, (of_decide_eq_true hFits).2⟩

end Compile

end Pep9
