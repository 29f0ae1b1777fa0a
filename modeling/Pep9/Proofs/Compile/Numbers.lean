import Pep9.Proofs.Compile.Ranges
import Pep9.Proofs.Compile.Reading
import Pep9.Proofs.Compile.Scoping
import Pep9.Settings.Basic

/-
  The numbers of a compiled script. Where all literals fit a
  word, so do the values of all data. The offsets in frames, the
  moves of the stack pointer and the places of arguments fit
  unless a function has too many bytes.

  Key theorems: `arrayBytes_sized`, `Signature.Fits.offsets`,
  `Emits.numbers`, `compile_numbers`.
-/

namespace Pep9

open List
open Listing (Instruction)
open Script (Expr Stmt)

variable {body : List Stmt} {e test : Expr} {exit name target : String}
  {p : String × Expr}

namespace Compile

mutual

/- The literals, names and lists that occur in a statement. -/
def stmtAtoms : Stmt → List Expr
  | .assign _ first _ value => first.atoms value
  | .augment _ target _ value => target.atoms value
  | .expr _ value => value.atoms
  | .ret _ value => value.toList.flatMap Expr.atoms
  | .cond _ test body orElse => test.atoms ++ (atomsIn body ++ atomsIn orElse)
  | .loop _ test body => test.atoms ++ atomsIn body
  | .each _ _ source body => source.atoms ++ atomsIn body
  | .define _ _ _ body => atomsIn body
  | _ => []

/- Those that occur in a block, with the functions in it. -/
def atomsIn : List Stmt → List Expr
  | [] => []
  | stmt :: rest => stmtAtoms stmt ++ atomsIn rest

end

/-
  A literal that fits a word, or a list whose bytes can be
  counted in 64 bits.
-/
def Expr.isModest : Expr → Bool
  | .literal n => fitsWord n
  | .list elements => elements.length < 2 ^ 62
  | _ => true

mutual

/- What is assigned in a block occurs in it. -/
theorem mem_stmtAtoms {outer : Int}
    (stmt : Stmt)
    (hP : p ∈ assignedIn (flattenStmt outer stmt))
    (hE : e ∈ p.2.atoms) :
    e ∈ stmtAtoms stmt := by
  cases stmt with
  | assign _ first =>
    cases first with
    | name =>
      cases mem_singleton.mp hP
      exact hE
    | element => cases hP
  | cond _ _ body orElse =>
    rw [flattenStmt, assignedIn_append] at hP
    rw [stmtAtoms]
    refine mem_append_right _ ?_
    rcases mem_append.mp hP with hP | hP
    · exact mem_append_left _ (mem_atomsIn body hP hE)
    · exact mem_append_right _ (mem_atomsIn orElse hP hE)
  | loop _ _ body | each _ _ _ body =>
    rw [stmtAtoms]
    exact mem_append_right _ (mem_atomsIn body hP hE)
  | _ => cases hP

theorem mem_atomsIn {outer : Int}
    (stmts : List Stmt)
    (hP : p ∈ assignedIn (flatten outer stmts))
    (hE : e ∈ p.2.atoms) :
    e ∈ atomsIn stmts := by
  cases stmts with
  | nil => cases hP
  | cons stmt rest =>
    rw [flatten, assignedIn_append] at hP
    rw [atomsIn]
    rcases mem_append.mp hP with hP | hP
    · exact mem_append_left _ (mem_stmtAtoms stmt hP hE)
    · exact mem_append_right _ (mem_atomsIn rest hP hE)

end

variable {n : Int64}

theorem fitsWord_iff :
    fitsWord n = true ↔ -32768 ≤ n.toInt ∧ n.toInt ≤ 65535 := by
  unfold fitsWord
  rw [Bool.and_eq_true, decide_eq_true_eq, decide_eq_true_eq,
    Int64.le_iff_toInt_le, Int64.le_iff_toInt_le]
  rfl

theorem fitsWord_ofInt {n : Int}
    (hLeast : -32768 ≤ n)
    (hMost : n ≤ 65535) :
    fitsWord (Int64.ofInt n) = true := by
  rw [fitsWord_iff, Int64.toInt_ofInt_of_le (by omega) (by omega)]
  exact ⟨hLeast, hMost⟩

/- A number of bytes that an array can have. -/
def Sized (n : Int64) : Prop := 0 < n.toInt ∧ n.toInt ≤ 65535

section Sizes

variable {usual size : Int64} {value : Expr}

theorem bytesOfLength_sized
    (hFar : n.toInt < 2 ^ 62)
    (h : bytesOfLength n = .ok size) :
    Sized size := by
  unfold Sized
  rcases bytesOfLength_eq_ok.mp h with ⟨_, _, _⟩ | ⟨_, _⟩ <;> omega

variable (hUsual : Sized usual)
include hUsual

/- An array has as many bytes as may be declared. -/
theorem arrayBytes_sized
    (hModest : ∀ e ∈ value.atoms, Expr.isModest e = true)
    (h : arrayBytes usual value = .ok size) :
    Sized size := by
  unfold arrayBytes at h
  split at h
  · next elements n =>
    have hFits := hModest (.literal n) (by simp [Expr.atoms])
    have hMost := (fitsWord_iff.mp hFits).2
    exact bytesOfLength_sized (by omega) h
  · next elements =>
    have hShort := hModest (.list elements) (by simp [Expr.atoms])
    rw [Expr.isModest, decide_eq_true_eq] at hShort
    refine bytesOfLength_sized ?_ h
    rw [Int64.toInt_ofNat_of_lt (by omega)]
    omega
  · cases h
    exact hUsual

/- What is declared of a variable fits a word. -/
theorem declaration_fits {storage : Storage}
    (hModest : ∀ e ∈ value.atoms, Expr.isModest e = true)
    (h : storageOf usual name value = .ok storage) :
    fitsWord (storage.declaration target).value = true := by
  unfold storageOf at h
  split at h
  · next n =>
    have hFits := hModest (.literal n) (by simp [Expr.atoms])
    rcases Result.seq h with ⟨_, _, hDone⟩
    split at hDone <;> cases hDone <;> exact hFits
  · split at h
    · cases h
    · split at h
      · rcases Result.seq h with ⟨_, hBytes, hDone⟩
        cases hDone
        have hSized := arrayBytes_sized hUsual hModest hBytes
        exact fitsWord_iff.mpr ⟨hSized.1.le.trans' (by decide), hSized.2⟩
      · cases h
        rfl

/- All locals have sizes that may be declared. -/
theorem locals_sized {params : List String} {sig : Signature}
    (hModest : ∀ e ∈ atomsIn body, Expr.isModest e = true)
    (h : analyzeFunction usual name params body = .ok sig) :
    ∀ l ∈ sig.locals, Sized l.size := by
  intro l hL
  rcases (analyzeFunction_recorded h).locals.first (l.name, l.size)
    (mem_map_of_mem hL) with ⟨_, hFirst, hSize⟩
  rcases Option.map_eq_some_iff.mp hFirst with ⟨_, hFound, rfl⟩
  have hMem := mem_of_find?_eq_some hFound
  unfold Signature.localSize at hSize
  split at hSize
  · exact arrayBytes_sized hUsual (fun e hE => hModest e (mem_atomsIn body hMem hE)) hSize
  · have hTwo : 2 = l.size := Except.ok.inj hSize
    rw [← hTwo]
    exact ⟨by decide, by decide⟩

end Sizes

/-
  A function whose locals, arguments and value have few enough
  bytes: all offsets from the stack pointer fit a word.
-/
structure Signature.Fits (sig : Signature) : Prop where
  frame : sig.localBytes + sig.callBytes ≤ 65535
  call : sig.callBytes ≤ 32768

section Frames

variable {sig : Signature}

/- So is every amount that calls of it need. -/
theorem Signature.Fits.passes (hFits : sig.Fits) :
    Passes (fun n => fitsWord n = true) sig := by
  intro _ _
  have hCall := hFits.call
  constructor
  · rw [← Int64.ofInt_eq_ofNat]
    exact fitsWord_ofInt (by omega) (by omega)
  · rw [← Int64.ofInt_eq_ofNat, ← Int64.ofInt_neg]
    exact fitsWord_ofInt (by omega) (by omega)

variable (h : ∀ l ∈ sig.locals, Sized l.size)
include h

/- The sizes of locals add up to their bytes. -/
theorem sizes_eq : sig.sizes = sig.localBytes := by
  unfold Signature.sizes Signature.localBytes
  revert h
  induction sig.locals with
  | nil => exact fun _ => rfl
  | cons l _ ih =>
    intro h
    rw [forall_mem_cons] at h
    have hFirst := h.1.1
    have hSize : (l.size.toNatClampNeg : Int) = l.size.toInt := by
      rw [← Int64.toNat_toInt, Int.toNat_of_nonneg (by omega)]
    rw [map_cons, map_cons, sum_cons, sum_cons, ih h.2]
    omega

variable (hFits : sig.Fits)
include hFits

theorem Signature.Fits.localsSize_eq :
    sig.localsSize.toInt = sig.localBytes := by
  have hFrame := hFits.frame
  have hPositive : ∀ l ∈ sig.locals, 0 < l.size := fun l hL => Int64.lt_iff_toInt_lt.mpr (h l hL).1
  unfold Signature.localsSize
  rw [Signature.foldl_sizes 0 hPositive, Int64.zero_add]
  exact Int64.toInt_ofNat_of_lt (by unfold Signature.localBytes at hFrame; omega)

/- The bytes of the locals fit in a word. -/
theorem Signature.Fits.locals :
    fitsWord sig.localsSize = true := by
  have hFrame := hFits.frame
  rw [fitsWord_iff, hFits.localsSize_eq h]
  omega

/- Every place of the function is at an offset that fits. -/
theorem Signature.Fits.offsets :
    ∀ slot ∈ frameSlots sig, fitsWord slot.offset = true := by
  intro _ hSlot
  have hFrame := hFits.frame
  have hTotal := hFits.localsSize_eq h
  have hMem := mem_map_of_mem (f := Slot.offset) hSlot
  rw [frameSlots_offsets] at hMem
  rcases mem_map.mp hMem with ⟨_, hOffset, hEq⟩
  rcases mem_frameOffsets (fun l hL => (h l hL).1)
    ((sizes_eq h).trans hTotal.symm) hOffset with ⟨_, _⟩
  rw [← hEq]
  exact fitsWord_ofInt (by omega) (by omega)

end Frames

------------------------------------------------------------
-- Code
------------------------------------------------------------

/- Code in which all numbers fit a word. -/
abbrev InWords (code : Code) : Prop := Numbers (fun n => fitsWord n = true) code

/- What is known so far has only numbers that fit. -/
structure Generator.Fits (usual : Int64) (g : Generator) : Prop where
  usual_eq : g.usual = usual
  calls : ∀ sig ∈ g.functions, Passes (fun n => fitsWord n = true) sig
  locals : ∀ sig ∈ g.context.function, fitsWord sig.localsSize = true
  frames : ∀ f ∈ g.frames, ∀ d ∈ f.decls, fitsWord d.value = true

namespace Generator.Fits

variable {usual : Int64} {g g' : Generator}

theorem steady (h : g.Fits usual) (hSteady : Steady g g') : g'.Fits usual where
  usual_eq := hSteady.usual.trans h.usual_eq
  calls := by
    rw [hSteady.functions]
    exact h.calls
  locals := by
    rw [hSteady.alike.function]
    exact h.locals
  frames := by
    rw [hSteady.frames]
    exact h.frames

end Generator.Fits

section Code

variable {usual : Int64} {g g' : Generator} {stmt : Stmt} {stmts : List Stmt} {code : Code}

/- The numbers in the code of a statement. -/
theorem Plain.numbers
    (h : Plain g stmt code g')
    (hModest : ∀ e ∈ stmtAtoms stmt, Expr.isModest e = true)
    (hG : g.Fits usual) :
    InWords code := by
  have hCalls : ∀ sig ∈ g.context.functions, Passes (fun n => fitsWord n = true) sig := by
    rw [g.context_functions]
    exact hG.calls
  have hLiterals : ∀ n, .literal n ∈ stmtAtoms stmt → fitsWord n = true := fun n hN => hModest _ hN
  cases h with
  | pass | elided => exact numbers_nil
  | stored _ _ _ _ hCode =>
    exact (storeCode_reads hCalls _ _ _).property hCode hLiterals
  | element hCode => exact (assignElement_reads hCalls _ _ _).property hCode hLiterals
  | expr hCode => exact (exprStmtCode_reads hCalls rfl _).property hCode hLiterals
  | ret hCode =>
    refine (returnCode_reads hCalls hG.locals _).property hCode ?_
    intro n hN
    refine hLiterals n ?_
    rcases mem_flatMap.mp hN with ⟨e, hE, hMem⟩
    exact mem_flatMap.mpr ⟨e, hE, by simpa using hMem⟩

/- The numbers in the code of a condition. -/
theorem condition_numbers {ctx : Context} {label : String}
    (h : ctx.conditionCode label exit test = .ok code)
    (hModest : ∀ e ∈ test.atoms, Expr.isModest e = true) :
    InWords code :=
  (conditionCode_reads label exit test).property h fun _ hN => hModest _ hN

theorem Guarded.atoms_eq {line : Int} {start : String}
    (h : Guarded g line test body stmt start exit target g') :
    stmtAtoms stmt = test.atoms ++ atomsIn body := by
  cases h with
  | loop => rw [stmtAtoms]
  | cond => rw [stmtAtoms, atomsIn, append_nil]

/- All code of a block, and what is known behind it. -/
theorem Emits.numbers
    (h : Emits g stmts code g')
    (hUsual : Sized usual)
    (hModest : ∀ e ∈ atomsIn stmts, Expr.isModest e = true)
    (hDefined :
      ∀ d ∈ definitions stmts, ∀ sig,
        analyzeFunction usual d.name d.params d.body = .ok sig → sig.Fits)
    (hG : g.Fits usual) :
    InWords code ∧ g'.Fits usual := by
  induction h with
  | nil => exact ⟨numbers_nil, hG⟩
  | plain hFirst _ ih =>
    rw [atomsIn, forall_mem_append] at hModest
    rw [definitions, forall_mem_append] at hDefined
    rcases ih hModest.2 hDefined.2 (hG.steady hFirst.steady.1) with ⟨hOthers, hLast⟩
    have hNumbers := hFirst.numbers hModest.1 hG
    exact ⟨numbers_append.mpr ⟨hNumbers, hOthers⟩, hLast⟩
  | guarded hLabels hTest _ _ ihBody ihRest =>
    rw [atomsIn, hLabels.atoms_eq, forall_mem_append, forall_mem_append] at hModest
    rw [definitions, hLabels.definitions_eq, forall_mem_append] at hDefined
    rcases ihBody hModest.1.2 hDefined.1 (hG.steady hLabels.takes.steady) with ⟨hCode, hInner⟩
    rcases ihRest hModest.2 hDefined.2 hInner with ⟨hOthers, hLast⟩
    have hCondition := condition_numbers hTest hModest.1.1
    refine ⟨?_, hLast⟩
    simp [hCondition, hCode, hOthers, mark, Instruction.labelled]
  | condElse _ hLabels hTest _ _ _ ihBody ihElse ihRest =>
    rw [atomsIn, stmtAtoms, forall_mem_append, forall_mem_append,
      forall_mem_append] at hModest
    rw [definitions, stmtDefinitions, forall_mem_append, forall_mem_append] at hDefined
    rcases ihBody hModest.1.2.1 hDefined.1.1 (hG.steady hLabels.takes.steady) with ⟨hCode, hInner⟩
    rcases ihElse hModest.1.2.2 hDefined.1.2 hInner with ⟨hElseCode, hOuter⟩
    rcases ihRest hModest.2 hDefined.2 hOuter with ⟨hOthers, hLast⟩
    have hCondition := condition_numbers hTest hModest.1.1
    refine ⟨?_, hLast⟩
    simp [hCondition, hCode, hElseCode, hOthers, mark, Instruction.labelled]
  | @define _ g₁ _ _ _ _ _ body _ _ _ _ hEnter hBody _ ihBody ihRest =>
    rw [atomsIn, stmtAtoms, forall_mem_append] at hModest
    rw [definitions, stmtDefinitions, forall_mem_append] at hDefined
    rcases enter_parts hEnter with ⟨parts⟩
    have hAnalyzed := parts.analyzed
    rw [hG.usual_eq] at hAnalyzed
    have hFits := hDefined.1 _ mem_cons_self _ hAnalyzed
    have hSizes := locals_sized hUsual hModest.1 hAnalyzed
    have hEntered : g₁.Fits usual := by
      rw [parts.after]
      refine ⟨hG.usual_eq, ?_, ?_, ?_⟩
      · exact forall_mem_append.mpr ⟨hG.calls, forall_mem_singleton.mpr hFits.passes⟩
      · rintro _ ⟨⟩
        exact hFits.locals hSizes
      · refine forall_mem_append.mpr ⟨hG.frames, forall_mem_singleton.mpr fun d hD => ?_⟩
        rcases (bindSlots_allots parts.complete).declared d hD with ⟨slot, hSlot, _, rfl⟩
        exact hFits.offsets hSizes slot hSlot
    have hNone : definitions body = [] := by
      refine hBody.definitions_eq_nil ?_
      rw [parts.after]
      rfl
    rcases ihBody hModest.1 (by simp [hNone]) hEntered with ⟨hCode, hInner⟩
    rcases ihRest hModest.2 hDefined.2
      ⟨hInner.usual_eq, hInner.calls, by rintro _ ⟨⟩, hInner.frames⟩ with ⟨hOthers, hLast⟩
    refine ⟨numbers_append.mpr ⟨?_, hOthers⟩, hLast⟩
    have hMoved := fun m =>
      @numbers_adjustStack (fun n => fitsWord n = true) m _ (hFits.locals hSizes)
    unfold Generator.Entry.wrap
    split <;> simp [hCode, hMoved, mark, Instruction.labelled]

end Code

/- A number that fits a word, and that the assembler reads as that word. -/
structure Readable (n : Int64) : Prop where
  least : -32768 ≤ n.toInt
  most : n.toInt ≤ 65535
  read : Assembly.readWord? (toString n) = some (Script.wordOf n)

theorem readable_of_fits (h : fitsWord n = true) : Readable n := by
  rcases fitsWord_iff.mp h with ⟨hLeast, hMost⟩
  refine ⟨hLeast, hMost, ?_⟩
  rw [Assembly.readWord?_toString, if_neg (by omega)]
  rfl

/- Settings that are accepted have a size for arrays. -/
theorem usual_of_check {settings accepted : Settings}
    (name : String)
    (h : settings.check = .ok accepted) :
    Options.usual ⟨Int64.ofInt settings.arrayBytes, name⟩ =
        Int64.ofInt settings.arrayBytes ∧ Sized (Int64.ofInt settings.arrayBytes) := by
  unfold Settings.check at h
  split at h
  · cases h
  · split at h
    · cases h
    · next hShape hSize =>
      have hExact : (Int64.ofInt settings.arrayBytes).toInt = settings.arrayBytes :=
        Int64.toInt_ofInt_of_le (by omega) (by omega)
      refine ⟨if_neg ?_, ?_, ?_⟩
      · rw [Int64.le_iff_toInt_le, hExact, Int64.toInt_zero]
        omega
      · omega
      · omega

/-
  The numbers of a script that compiles, if its literals fit a
  word and its lists can be counted. Those of the data fit a
  word. So do those of all frames and of the code, if every
  function has at most 65535 bytes of locals, arguments and
  value, and at most 32768 without the locals. The assembler
  then reads each number as it is.
-/
theorem compile_numbers {settings accepted : Settings} {name source : String}
    {stmts : List Stmt} {compiled : Compiled}
    (hSettings : settings.check = .ok accepted)
    (hParsed : Script.parseSource source = .ok stmts)
    (hModest : ∀ e ∈ atomsIn stmts, Expr.isModest e = true)
    (hCompiled :
      compile ⟨Int64.ofInt settings.arrayBytes, name⟩ source = .ok compiled) :
    (∀ d ∈ compiled.program.data, Readable d.value) ∧
      ((∀ d ∈ definitions stmts, ∀ sig,
          analyzeFunction (Int64.ofInt settings.arrayBytes) d.name d.params
            d.body = .ok sig → sig.Fits) →
        (∀ f ∈ compiled.program.frames, ∀ d ∈ f.decls, Readable d.value) ∧
        ∀ i ∈ compiled.program.code, ∀ n, i.operand = .number n →
          Readable n) := by
  rcases usual_of_check name hSettings with ⟨hUsual, hSized⟩
  rcases compile_generate hCompiled with ⟨_, hParsed', hGenerated⟩
  cases hParsed.symm.trans hParsed'
  rcases generate_allocated hGenerated with ⟨parts, _⟩
  have hAnalyzed := parts.analyzed
  rw [hUsual] at hAnalyzed
  refine ⟨fun d hD => readable_of_fits ?_, fun hDefined => ?_⟩
  · rcases (allocateGlobals_allots parts.allocated).declared d hD with ⟨v, hV, _, rfl⟩
    rcases (analyzeGlobals_recorded hAnalyzed).first (v.name, v.storage)
      (mem_map_of_mem hV) with ⟨_, hFirst, hStorage⟩
    rcases Option.map_eq_some_iff.mp hFirst with ⟨_, hFound, rfl⟩
    have hMem := mem_of_find?_eq_some hFound
    exact declaration_fits hSized (fun e hE => hModest e (mem_atomsIn stmts hMem hE)) hStorage
  · have hStart : (Generator.start (Int64.ofInt settings.arrayBytes) parts.globals
          parts.bound).Fits (Int64.ofInt settings.arrayBytes) := ⟨rfl, nofun, nofun, nofun⟩
    have hLabelled := parts.labelled
    rw [hUsual] at hLabelled
    rcases parts.emits.numbers hSized hModest hDefined
      (hStart.steady (steady_label isStem_landing hLabelled).1) with ⟨hCode, hFinal⟩
    rw [parts.program]
    refine ⟨fun f hF d hD => readable_of_fits (hFinal.frames f hF d hD), ?_⟩
    intro i hI n hN
    refine readable_of_fits ?_
    have hAll : InWords (mark parts.entry :: parts.code
          ++ (if endsWithExit stmts then [] else [.plain .stop])) := by
      split <;> simp [hCode, mark, Instruction.labelled]
    exact hAll i hI n hN

/- The greatest and the least literal, and the longest array. -/
def extremes : String :=
  "v_ = [0] * 32767\ndef f(n):\n    w_ = [0] * 3\n    w_[2] = 65535\n" ++
    "    return n\nx = f(-32768)\n"

theorem compile_numbers_extremes :
    ∃ compiled,
      compile ⟨200, "extremes.py"⟩ extremes = .ok compiled ∧
        (∀ d ∈ compiled.program.data, Readable d.value) ∧
        (∀ f ∈ compiled.program.frames, ∀ d ∈ f.decls, Readable d.value) ∧
        ∀ i ∈ compiled.program.code, ∀ n, i.operand = .number n → Readable n := by
  have hChecked : ((Script.parseSource extremes).toOption.any fun stmts =>
        (atomsIn stmts).all Expr.isModest && (definitions stmts).all fun d =>
            (analyzeFunction 200 d.name d.params d.body).toOption.all fun sig =>
              sig.localBytes + sig.callBytes ≤ 65535 && sig.callBytes ≤ 32768) = true := by
    decide +kernel
  have hCompiles : (compile ⟨200, "extremes.py"⟩ extremes).isOk = true := by
    decide +kernel
  rcases Result.isOk_eq_true.mp hCompiles with ⟨compiled, hCompiled⟩
  rcases Result.any_eq_true.mp hChecked with ⟨_, hParsed, hAll⟩
  rw [Bool.and_eq_true, all_eq_true, all_eq_true] at hAll
  rcases @compile_numbers .standard .standard _ _ _ _ rfl hParsed hAll.1
    hCompiled with ⟨hData, hRest⟩
  refine ⟨compiled, hCompiled, hData, hRest fun d hD sig hSig => ?_⟩
  have hFits := hAll.2 d hD
  rw [show analyzeFunction 200 d.name d.params d.body = .ok sig from hSig] at hFits
  have hBounds : sig.localBytes + sig.callBytes ≤ 65535 ∧ sig.callBytes ≤ 32768 := by
    simpa [Except.toOption] using hFits
  exact ⟨hBounds.1, hBounds.2⟩

/- Two local arrays of the greatest length. -/
def twoArrays : String :=
  "def f():\n    a_ = [0] * 32767\n    b_ = [0] * 32767\nf()\n"

/-
  All literals fit, and each array does, but the bytes of both
  do not: the stack pointer is to be moved by 131068.
-/
theorem twoArrays_unreadable :
    ∃ stmts compiled, Script.parseSource twoArrays = .ok stmts ∧
        (∀ e ∈ atomsIn stmts, Expr.isModest e = true) ∧
        compile ⟨200, "twoArrays.py"⟩ twoArrays = .ok compiled ∧
        .of .subsp (.number 131068) .immediate ∈ compiled.program.code ∧
        Assembly.readWord? (toString (131068 : Int64)) = none := by
  have hChecked : ((Script.parseSource twoArrays).toOption.any fun stmts =>
        (atomsIn stmts).all Expr.isModest) = true := by
    decide +kernel
  have hCompiles : ((compile ⟨200, "twoArrays.py"⟩ twoArrays).toOption.any fun compiled =>
        compiled.program.code.contains (.of .subsp (.number 131068) .immediate)) = true := by
    decide +kernel
  rcases Result.any_eq_true.mp hChecked with ⟨stmts, hParsed, hAll⟩
  rcases Result.any_eq_true.mp hCompiles with ⟨compiled, hCompiled, hCode⟩
  refine ⟨stmts, compiled, hParsed, all_eq_true.mp hAll, hCompiled,
    contains_iff_mem.mp hCode, ?_⟩
  rw [Assembly.readWord?_toString]
  rfl

end Compile

end Pep9
