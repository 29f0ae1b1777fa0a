import Pep9.Proofs.Compile.Arguments
import Pep9.Proofs.Compile.Correctness
import Pep9.Proofs.Compile.Discipline
import Pep9.Proofs.Compile.Routines

/-
  The convention between callers and functions. A caller
  stores the arguments where the function has the places of
  its parameters; a function leaves its value where the caller
  loads it; and the stack pointer is back where it was.

  Key theorems: `Linked.enters`, `Linked.leaves`,
  `Linked.cleansUp`, `Linked.convention`.
-/

namespace Pep9

open List
open Assembly (codeStart codeBytes operandValue)
open Listing (Program)
open Machine (Memory Clear offset_add)
open Script (Stmt wordOf)

variable {i : Nat} {rest : Code}

namespace Compile

namespace Signature

variable {sig : Signature}

/- The number of bytes of locals none of which has a negative size. -/
def localBytes (sig : Signature) : Nat :=
  (sig.locals.map fun l => l.size.toNatClampNeg).sum

/- The number of bytes of the arguments and of the value. -/
def callBytes (sig : Signature) : Nat :=
  2 * sig.params.length + (if sig.hasReturn then 2 else 0)

/-
  The number of bytes of a whole frame: the locals, the return
  address, the parameters and the value that is returned.
-/
def frameBytes (sig : Signature) : Nat := sig.localBytes + 2 + sig.callBytes

theorem frameBytes_eq (sig : Signature) :
    sig.frameBytes = sig.localBytes + 2 + sig.callBytes := rfl

/- Every local has a place of its own in a frame that fits. -/
structure Roomy (sig : Signature) : Prop where
  positive : ∀ l ∈ sig.locals, 0 < l.size
  fits : sig.frameBytes ≤ Machine.memorySize

/- Sizes are added up in any order. -/
theorem foldl_sizes
    (total : Int64)
    {locals : List Local}
    (h : ∀ l ∈ locals, 0 < l.size) :
    locals.foldl (fun total l => total + l.size) total =
      total + Int64.ofNat (locals.map fun l => l.size.toNatClampNeg).sum := by
  induction locals generalizing total with
  | nil => exact (Int64.add_zero total).symm
  | cons l _ ih =>
    have hSize : Int64.ofNat l.size.toNatClampNeg = l.size :=
      Int64.ofNat_toNatClampNeg _ (Int64.le_of_lt (h l mem_cons_self))
    rw [foldl_cons, map_cons, sum_cons, Int64.ofNat_add, hSize, ← Int64.add_assoc]
    exact ih _ fun l hL => h l (mem_cons_of_mem _ hL)

namespace Roomy

theorem localsSize_eq (h : sig.Roomy) :
    sig.localsSize = Int64.ofNat sig.localBytes := by
  unfold localsSize localBytes
  rw [foldl_sizes 0 h.positive, Int64.zero_add]

end Roomy

theorem argBytes_eq (sig : Signature) :
    sig.argBytes = Int64.ofNat sig.callBytes := by
  unfold argBytes callBytes
  split <;> rfl

theorem argBytes_sub (h : sig.hasReturn = true) :
    sig.argBytes - 2 = Int64.ofNat (2 * sig.params.length) := by
  unfold argBytes
  rw [if_pos h, Nat.mul_succ, Int64.ofNat_add]
  exact Int64.add_sub_cancel _ _

end Signature

theorem ofNat_nonneg {n : Nat}
    (h : n ≤ Machine.memorySize) :
    0 ≤ Int64.ofNat n := by
  have hSize : Machine.memorySize = 65536 := rfl
  rw [Int64.le_iff_toInt_le, Int64.toInt_ofNat_of_lt (by omega)]
  exact Int.natCast_nonneg n

/- The place to which a call comes back. -/
def CallSite.resume (s : CallSite) : Code :=
  s.upTo ++ [s.jump]

/-
  A function and a call of it in a program: where they stand,
  and what the names of the frame stand for.
-/
structure Linked (p : Program) (value : String → UInt16) (limit : Nat)
    (start : Code) (r : Routine) (s : CallSite) : Prop where
  fitting : ∀ i ∈ p.code, Fitting i
  size : codeStart p + (codeBytes value p.code).length ≤ limit
  label : value r.label = addressOf p value start
  routine : ∃ rest, p.code = start ++ (r.head ++ r.body) ++ rest
  site : p.code = s.code
  callee : s.callee = ⟨r.sig, r.label⟩
  count : s.args.length = r.sig.params.length
  stores : argsCode s.ctx s.callee.firstSlot s.args = .ok s.stores
  roomy : r.sig.Roomy

variable {slot : Option String} {name : String}

namespace Linked

variable {p : Program} {value : String → UInt16} {limit : Nat} {start : Code}
  {r : Routine} {s : CallSite} {m : Machine} {base : UInt16}

theorem wordOf_argBytes (sig : Signature) :
    wordOf sig.argBytes = UInt16.ofNat sig.callBytes := by
  rw [sig.argBytes_eq, Script.wordOf_ofNat]

variable (h : Linked p value limit start r s)
include h

/- What is called is the function that is linked. -/
theorem sig_eq : s.callee.sig = r.sig := by
  rw [h.callee]

theorem wordOf_localsSize :
    wordOf r.sig.localsSize = UInt16.ofNat r.sig.localBytes := by
  rw [h.roomy.localsSize_eq, Script.wordOf_ofNat]

/- Where the arguments are stored, and those bytes alone. -/
theorem firstSlot_eq (hSP : m.sp = base + UInt16.ofNat r.sig.frameBytes) :
    m.sp + wordOf s.callee.firstSlot =
        base + UInt16.ofNat (r.sig.localBytes + 2) ∧ m.sp - wordOf r.sig.argBytes =
        base + UInt16.ofNat (r.sig.localBytes + 2) := by
  have hSub : m.sp - wordOf r.sig.argBytes = base + UInt16.ofNat (r.sig.localBytes + 2) := by
    rw [hSP, wordOf_argBytes]
    exact Machine.offset_sub ..
  refine ⟨?_, hSub⟩
  rw [h.callee, ← hSub]
  change m.sp + wordOf (-r.sig.argBytes) = _
  rw [Script.wordOf_neg, UInt16.sub_eq_add_neg]

/- The arguments are stored and their bytes are set aside. -/
theorem passes
    (hAt : Executing p value s.before m)
    (hSP : m.sp = base + UInt16.ofNat r.sig.frameBytes)
    (hClear : Clear limit base r.sig.frameBytes) :
    ∃ words, s.ctx.words? value m.sp (m.sp - wordOf r.sig.argBytes) m.memory s.args = some words ∧
        Reaches p value m s.upTo fun last =>
          last.sp = base + UInt16.ofNat (r.sig.localBytes + 2) ∧ last.memory = m.memory.setWords
                (base + UInt16.ofNat (r.sig.localBytes + 2)) words := by
  rcases h.firstSlot_eq hSP with ⟨hSlot, hSub⟩
  have hFrame := r.sig.frameBytes_eq
  have hArgs : 2 * s.args.length ≤ r.sig.callBytes := by
    rw [h.count]
    exact Nat.le_add_right _ _
  have hFits := h.roomy.fits
  have hCode : p.code = s.before ++ s.stores ++ (adjustStack .subsp s.callee.sig.argBytes
          ++ .jump .call s.callee.label :: (s.callee.cleanUp ++ s.behind)) := by
    rw [h.site, CallSite.code, CallSite.upTo, CallSite.jump]
    simp only [append_assoc]
  rcases argsCode_fills h.stores m with ⟨words, next, hWords, hFills⟩
  have hBelow : Clear limit (m.sp + wordOf s.callee.firstSlot) (2 * words.length) := by
    rw [hSlot, Context.length_words? hWords]
    exact hClear.sub (by omega)
  rcases hFills.executing h.fitting h.size hBelow hAt hCode with ⟨_, hSteps, hNext⟩
  have hMemory := hFills.memory
  rw [hSlot] at hWords hMemory
  rw [hSub]
  refine ⟨words, hWords, .after hSteps ?_⟩
  have hBytes : 0 ≤ s.callee.sig.argBytes := by
    rw [h.sig_eq, Signature.argBytes_eq]
    exact ofNat_nonneg (by omega)
  have hMove : base + UInt16.ofNat (r.sig.localBytes + 2) =
      next.sp - wordOf s.callee.sig.argBytes := by
    rw [hFills.sp, h.sig_eq, hSub]
  refine (hNext.adjust h.fitting h.site hBytes (.inl ⟨rfl, hMove⟩)).mono fun last hLast => ?_
  exact ⟨hLast.2.1, hLast.2.2.trans hMemory⟩

/-
  The function is entered with the place behind the call on
  the stack, and below it the bytes of its locals.
-/
theorem enters
    (hAt : Executing p value s.upTo m)
    (hSP : m.sp = base + UInt16.ofNat (r.sig.localBytes + 2))
    (hClear : Clear limit base r.sig.frameBytes) :
    Reaches p value m (start ++ r.head) fun last =>
      last.sp = base ∧ last.memory = m.memory.setWord (base + UInt16.ofNat r.sig.localBytes)
            (addressOf p value s.resume) := by
  have hFrame := r.sig.frameBytes_eq
  have hFits := h.roomy.fits
  have hGoal : value s.callee.label = addressOf p value start := by
    rw [h.callee]
    exact h.label
  have hBelow : m.sp - 2 = base + UInt16.ofNat r.sig.localBytes := by
    rw [hSP]
    exact Machine.offset_sub ..
  have hWord : Clear limit (m.sp - 2) 2 := by
    rw [hBelow]
    exact hClear.sub (by omega)
  rcases h.routine with ⟨rest, hCode⟩
  have hMark : p.code = start ++ mark r.label
          :: (adjustStack .subsp r.sig.localsSize ++ r.body ++ rest) := by
    rw [hCode, Routine.head]
    simp only [append_assoc, cons_append]
  have hHead : p.code = start ++ [mark r.label] ++ adjustStack .subsp r.sig.localsSize
          ++ (r.body ++ rest) := by
    rw [hMark]
    simp only [append_assoc, cons_append, nil_append]
  have hPlace : start ++ r.head =
        start ++ [mark r.label] ++ adjustStack .subsp r.sig.localsSize := by
    rw [Routine.head, append_assoc]
    rfl
  have hBytes : 0 ≤ r.sig.localsSize := by
    rw [h.roomy.localsSize_eq]
    exact ofNat_nonneg (by omega)
  rw [hPlace]
  refine (hAt.call h.fitting h.site hGoal h.size hWord).bind fun called hCalled hState => ?_
  have hPassed := hCalled.passed h.fitting hMark
  have hMove : base = called.sp - wordOf r.sig.localsSize := by
    rw [h.wordOf_localsSize, hState.1, hBelow, UInt16.add_sub_cancel]
  refine .after (hCalled.step h.fitting hMark rfl) ?_
  refine (hPassed.adjust h.fitting hHead hBytes (.inl ⟨rfl, hMove⟩)).mono fun last hLast => ?_
  refine ⟨hLast.2.1, ?_⟩
  rw [← hBelow]
  exact hLast.2.2.trans hState.2

/- The value is stored in the last word of the frame. -/
theorem storesValue {place : Code}
    (hCode : p.code = place ++ storeValue slot ++ rest)
    (hSlot : ∀ target, slot = some target →
        r.sig.hasReturn = true ∧ value target =
            UInt16.ofNat (r.sig.localBytes + 2 + 2 * r.sig.params.length))
    (hAt : Executing p value place m)
    (hSP : m.sp = base)
    (hClear : Clear limit base r.sig.frameBytes) :
    Reaches p value m (place ++ storeValue slot) fun last =>
      last.sp = base ∧ last.memory.word (base + UInt16.ofNat r.sig.localBytes) =
          m.memory.word (base + UInt16.ofNat r.sig.localBytes) ∧ (slot.isSome = true →
          last.memory.word (base + UInt16.ofNat (r.sig.localBytes + 2 + 2 * r.sig.params.length)) =
            m.a) := by
  cases slot with
  | none =>
    rw [storeValue, append_nil]
    exact .here hAt ⟨hSP, rfl, by rintro ⟨⟩⟩
  | some target =>
    rcases hSlot target rfl with ⟨hReturn, hValue⟩
    have hFrame : r.sig.frameBytes = r.sig.localBytes + 2 + (2 * r.sig.params.length + 2) := by
      unfold Signature.frameBytes Signature.callBytes
      rw [if_pos hReturn]
    have hFits := h.roomy.fits
    have hPlace : m.sp + operandValue value (.symbol target) = base + UInt16.ofNat
            (r.sig.localBytes + 2 + 2 * r.sig.params.length) := by
      rw [hSP, ← hValue]
      rfl
    have hWord : Clear limit (m.sp + operandValue value (.symbol target)) 2 := by
      rw [hPlace]
      exact hClear.sub (by omega)
    have hStore : p.code = place ++ .of Register.a.store (.symbol target) .stackRelative
            :: rest := by
      rw [hCode, storeValue, append_assoc]
      rfl
    refine (hAt.store h.fitting hStore (by rintro ⟨⟩) h.size hWord).mono ?_
    rintro _ rfl
    rw [hPlace]
    refine ⟨hSP, ?_, fun _ => Memory.word_setWord ..⟩
    exact Memory.word_setWord_offset (by omega) (by omega) (by omega)

/-
  A function that ends with its frame as it was entered comes
  back behind the call, with its value in the last word of the
  frame.
-/
theorem leaves {outer : Code}
    (hCode : p.code = start ++ r.head ++ outer ++ r.sig.leaving slot ++ rest)
    (hSlot :
      ∀ target, slot = some target → r.sig.hasReturn = true ∧ value target =
            UInt16.ofNat (r.sig.localBytes + 2 + 2 * r.sig.params.length))
    (hAt : Executing p value (start ++ r.head ++ outer) m)
    (hSP : m.sp = base)
    (hReturn : m.memory.word (base + UInt16.ofNat r.sig.localBytes) = addressOf p value s.resume)
    (hClear : Clear limit base r.sig.frameBytes) :
    Reaches p value m s.resume fun last =>
      last.sp = base + UInt16.ofNat (r.sig.localBytes + 2) ∧ (slot.isSome = true →
          last.memory.word (base + UInt16.ofNat (r.sig.localBytes + 2 + 2 * r.sig.params.length)) =
            m.a) := by
  have hFrame := r.sig.frameBytes_eq
  have hFits := h.roomy.fits
  have hBytes : 0 ≤ r.sig.localsSize := by
    rw [h.roomy.localsSize_eq]
    exact ofNat_nonneg (by omega)
  -- The three parts of the end: the value, the locals, the return.
  have hStore : p.code = start ++ r.head ++ outer ++ storeValue slot
          ++ (adjustStack .addsp r.sig.localsSize ++ .plain .ret :: rest) := by
    rw [hCode, Signature.leaving]
    simp only [append_assoc, cons_append, nil_append]
  have hLocals : p.code = start ++ r.head ++ outer ++ storeValue slot
          ++ adjustStack .addsp r.sig.localsSize ++ .plain .ret :: rest := by
    rw [hStore, ← append_assoc]
  refine (h.storesValue hStore hSlot hAt hSP hClear).bind fun stored hStored hState => ?_
  rcases hState with ⟨hPointer, hAddress, hValue⟩
  have hMove : base + UInt16.ofNat r.sig.localBytes = stored.sp + wordOf r.sig.localsSize := by
    rw [hPointer, h.wordOf_localsSize]
  refine (hStored.adjust h.fitting hLocals hBytes
    (.inr ⟨rfl, hMove⟩)).bind fun freed hFreed hSame => ?_
  rcases hSame with ⟨_, hTop, hMemory⟩
  have hGoal : freed.memory.word freed.sp = addressOf p value s.resume := by
    rw [hTop, hMemory, hAddress, hReturn]
  refine (hFreed.ret h.fitting hLocals hGoal).mono fun last hLast => ⟨?_, ?_⟩
  · rw [← offset_add, ← hTop]
    exact hLast.1
  · rw [hLast.2, hMemory]
    exact hValue

/-
  Behind the call the bytes of the arguments are given back
  and the value, if there is one, is loaded.
-/
theorem cleansUp
    (hAt : Executing p value s.resume m)
    (hSP : m.sp = base + UInt16.ofNat (r.sig.localBytes + 2)) :
    Reaches p value m (s.resume ++ s.callee.cleanUp) fun last =>
      last.sp = base + UInt16.ofNat r.sig.frameBytes ∧ (r.sig.hasReturn = true → last.a =
            m.memory.word (base + UInt16.ofNat
                (r.sig.localBytes + 2 + 2 * r.sig.params.length))) := by
  have hFits := h.roomy.fits
  have hCode : p.code = s.resume ++ s.callee.cleanUp ++ s.behind := by
    rw [h.site, CallSite.code, CallSite.resume]
    simp only [append_assoc, cons_append, nil_append]
  unfold Callee.cleanUp at hCode ⊢
  rw [h.sig_eq] at hCode ⊢
  by_cases hReturn : r.sig.hasReturn = true
  · rw [if_pos hReturn] at hCode ⊢
    have hFrame : r.sig.frameBytes = r.sig.localBytes + 2 + 2 * r.sig.params.length + 2 := by
      unfold Signature.frameBytes Signature.callBytes
      rw [if_pos hReturn]
      omega
    have hBytes : 0 ≤ Int64.ofNat (2 * r.sig.params.length) := ofNat_nonneg (by omega)
    rw [Signature.argBytes_sub hReturn] at hCode ⊢
    rw [append_assoc] at hCode
    have hFirst : p.code = s.resume ++ adjustStack .addsp (Int64.ofNat (2 * r.sig.params.length))
            ++ .of Register.a.load (.number 0) .stackRelative
              :: (adjustStack .addsp 2 ++ s.behind) := by
      rw [hCode]
      simp only [append_assoc, cons_append, nil_append]
      rfl
    have hLast : p.code = s.resume ++ adjustStack .addsp (Int64.ofNat (2 * r.sig.params.length))
            ++ [.of Register.a.load (.number 0) .stackRelative]
            ++ adjustStack .addsp 2 ++ s.behind := by
      rw [hFirst]
      simp only [append_assoc, cons_append, nil_append]
    have hMove : base + UInt16.ofNat (r.sig.localBytes + 2 + 2 * r.sig.params.length) =
          m.sp + wordOf (Int64.ofNat (2 * r.sig.params.length)) := by
      rw [hSP, Script.wordOf_ofNat, offset_add]
    rw [← append_assoc, ← append_assoc]
    refine (hAt.adjust h.fitting hFirst hBytes (.inr ⟨rfl, hMove⟩)).bind
      fun freed hFreed hState => ?_
    rcases hState with ⟨_, hTop, hMemory⟩
    have hLoad : ∃ last,
        Puts value (.of Register.a.load (.number 0) .stackRelative) .a _ freed last :=
      applies_load value (by decide) rfl rfl
    rcases hLoad with ⟨loaded, hLoads, hRead, _⟩
    rcases hFreed.executes (hFirst.trans (append_cons ..)) hLoads with ⟨hSteps, hLoaded⟩
    have hEnd : base + UInt16.ofNat r.sig.frameBytes = loaded.sp + wordOf 2 := by
      rw [hLoads.sp, hTop, hFrame]
      exact (offset_add ..).symm
    refine .after hSteps ((hLoaded.adjust h.fitting hLast (by decide)
      (.inr ⟨rfl, hEnd⟩)).mono fun last hDone => ⟨hDone.2.1, fun _ => ?_⟩)
    have hWord : loaded.a = freed.memory.word (freed.sp + 0) := hRead
    rw [hDone.1, hWord, hMemory, hTop, UInt16.add_zero]
  · rw [if_neg hReturn] at hCode ⊢
    have hFrame := r.sig.frameBytes_eq
    have hBytes : 0 ≤ r.sig.argBytes := by
      rw [Signature.argBytes_eq]
      exact ofNat_nonneg (by omega)
    have hMove : base + UInt16.ofNat r.sig.frameBytes = m.sp + wordOf r.sig.argBytes := by
      rw [hSP, wordOf_argBytes, offset_add]
      rfl
    refine (hAt.adjust h.fitting hCode hBytes (.inr ⟨rfl, hMove⟩)).mono fun last hLast => ?_
    exact ⟨hLast.2.1, fun hSome => absurd hSome hReturn⟩

end Linked

------------------------------------------------------------
-- Places of Frames
------------------------------------------------------------

/- Each parameter has its word in the frame. -/
theorem mem_paramSlots {params : List String}
    (offset : Int64)
    (h : params[i]? = some name) :
    ⟨name, name, offset + Int64.ofNat (2 * i), false⟩ ∈ (paramSlots offset params).1 := by
  induction params generalizing offset i with
  | nil => cases h
  | cons _ _ ih =>
    rw [paramSlots]
    cases i with
    | zero =>
      cases h
      rw [Nat.mul_zero]
      have hSame : offset + Int64.ofNat 0 = offset := Int64.add_zero offset
      rw [hSame]
      exact mem_cons_self
    | succ i =>
      have hNext : offset + Int64.ofNat (2 * (i + 1)) = offset + 2 + Int64.ofNat (2 * i) := by
        rw [Nat.mul_succ, Nat.add_comm, Int64.ofNat_add, ← Int64.add_assoc]
        rfl
      rw [hNext]
      exact mem_cons_of_mem _ (ih _ h)

namespace Routine.Of

variable {usual : Int64} {frames : List Listing.Frame} {functions : Bindings}
  {sigs : List Signature} {d : Definition} {r : Routine}

variable (h : r.Of usual frames functions sigs d)
include h

/- The slot of a parameter is declared. -/
theorem param (hParam : r.sig.params[i]? = some name) :
    ∃ target, ⟨target, .equate,
          r.sig.localsSize + 2 + Int64.ofNat (2 * i)⟩ ∈ r.decls ∧ r.data.find name =
          some ⟨name, target, .data, .local d.name⟩ := by
  have hSlot := mem_paramSlots (r.sig.localsSize + 2) hParam
  refine h.places.declared ⟨name, name, _, false⟩ ?_
  rw [frameSlots_eq]
  exact mem_append_left _ (mem_append_right _ hSlot)

/- The slot of the returned value is declared. -/
theorem value {target : String}
    (hSlot : IsReturnSlot r.data slot)
    (hTarget : slot = some target) :
    r.sig.hasReturn = true ∧ ⟨target, .equate, r.sig.localsSize + 2
            + Int64.ofNat (2 * r.sig.params.length)⟩ ∈ r.decls := by
  rcases hSlot target hTarget with ⟨b, hFound, rfl⟩
  have hReturn := h.room b hFound
  refine ⟨hReturn, ?_⟩
  have hMem : ⟨returnSource, returnName, r.sig.localsSize + 2
            + Int64.ofNat (2 * r.sig.params.length), false⟩ ∈ frameSlots r.sig := by
    rw [frameSlots_eq, if_pos hReturn]
    exact mem_append_right _ mem_cons_self
  rcases h.places.declared _ hMem with ⟨_, hDecl, hSame⟩
  cases hFound.symm.trans hSame
  exact hDecl

end Routine.Of

/- What a place behind the locals and the return address is. -/
theorem Signature.Roomy.wordOf_offset {sig : Signature}
    (h : sig.Roomy)
    (n : Nat) :
    wordOf (sig.localsSize + 2 + Int64.ofNat n) = UInt16.ofNat (sig.localBytes + 2 + n) := by
  rw [Script.wordOf_add, Script.wordOf_add, h.localsSize_eq,
    Script.wordOf_ofNat, Script.wordOf_ofNat, UInt16.ofNat_add, UInt16.ofNat_add]
  rfl

section Programs

variable {d : Definition} {r : Routine} {s : CallSite}
  {options : Options} {stmts : List Stmt} {compiled : Compiled}
  {parts : Parts options .empty stmts compiled}

/- The functions of a program have different names. -/
theorem signatures_nodup
    (hNamed : Script.WellNamed stmts)
    (parts : Parts options .empty stmts compiled) :
    (parts.final.functions.map Signature.name).Nodup := by
  have hSteady := (steady_label isStem_landing parts.labelled).1
  refine (hSteady.signed.trans (parts.emits.signed hNamed)).nodup ?_
  exact nodup_nil

/- What is called is the function with the name. -/
theorem Outlook.Makes.callee_of_name
    (hNodup : (compiled.table.labels.map Binding.source).Nodup)
    (hSigs : (parts.final.functions.map Signature.name).Nodup)
    (hOf : parts.outlook.Defines d r)
    (h : parts.outlook.Makes s)
    (hName : s.function = d.name) :
    s.callee = ⟨r.sig, r.label⟩ := by
  have hFacts := callee_facts h.callee_eq
  rcases hFacts.bound with ⟨b, hB, hSource, hTarget⟩
  rcases h.sight.calls b hB with ⟨_, hOuter, hSame, hLabel⟩
  rw [inj_on_of_nodup_map hNodup hOuter hOf.bound
    (hSame.trans (hSource.trans hName))] at hLabel
  have hSig := inj_on_of_nodup_map hSigs (h.known _ hFacts.mem) hOf.listed
    (hFacts.name_eq.trans (hName.trans hOf.name_eq.symm))
  rw [← hSig]
  exact congrArg (Callee.mk s.callee.sig) (hLabel.trans hTarget).symm

/- A call of a program is linked to its function. -/
theorem Outlook.Makes.linked {value : String → UInt16} {bytes : List UInt8}
    {start : Code}
    (hNamed : Script.WellNamed stmts)
    (facts : Facts parts)
    (hImage : Assembly.Image compiled.program value bytes)
    (hOf : parts.outlook.Defines d r)
    (hCode : compiled.program.code = start ++ (r.head ++ r.body) ++ rest)
    (h : parts.outlook.Makes s)
    (hCallee : s.callee = ⟨r.sig, r.label⟩)
    (hSite : compiled.program.code = s.code)
    (hRoomy : r.sig.Roomy) :
    Linked compiled.program value bytes.length start r s := by
  have hMark : compiled.program.code = start ++ mark r.label
          :: (adjustStack .subsp r.sig.localsSize ++ r.body ++ rest) := by
    rw [hCode, Routine.head]
    simp only [append_assoc, cons_append]
  exact {
      fitting := (facts.ready hNamed).fitting
      size := Nat.le_of_eq hImage.length_eq.symm
      label := hImage.label start (mark r.label) _ hMark
        (mem_labels.mp (facts.functions _ hOf.bound)).1
      routine := ⟨rest, hCode⟩
      site := hSite
      callee := hCallee
      count := by rw [(callee_facts h.callee_eq).count, hCallee]
      stores := h.stores_eq
      roomy := hRoomy }

end Programs

/-
  What a caller and a function agree on, in a program whose
  names stand for some words and whose object code ends at
  some limit.

  When the call has been executed, the stack pointer is at the
  base of the frame, the place behind the call is above the
  locals, and every parameter has the value of its argument. A
  function that ends with the frame so comes back behind the
  call, and when the caller has cleaned up, the stack pointer
  is where it was and the value is in the accumulator.
-/
structure Convention (p : Program) (value : String → UInt16) (limit : Nat)
    (start : Code) (r : Routine) (s : CallSite) : Prop where
  enters : ∀ m, Executing p value s.before m → Clear limit (m.sp - UInt16.ofNat r.sig.frameBytes)
          r.sig.frameBytes → ∃ words, s.ctx.words? value m.sp (m.sp - wordOf r.sig.argBytes)
              m.memory s.args = some words ∧ words.length = r.sig.params.length ∧
            Reaches p value m (start ++ r.head) fun last =>
              last.sp = m.sp - UInt16.ofNat r.sig.frameBytes ∧
                last.memory.word (last.sp + wordOf r.sig.localsSize) = addressOf p value s.resume ∧
                ∀ (i : Nat) name w, r.sig.params[i]? = some name → words[i]? = some w →
                    ∃ b offset, r.data.find name = some b ∧ ⟨b.target, .equate, offset⟩ ∈ r.decls ∧
                      last.memory.word (last.sp + value b.target) = w
  returns : ∀ outer slot rest, r.body = outer ++ r.sig.leaving slot ++ rest →
      IsReturnSlot r.data slot → ∀ sp m, Clear limit (sp - UInt16.ofNat r.sig.frameBytes)
              r.sig.frameBytes → Executing p value (start ++ r.head ++ outer) m →
            m.sp = sp - UInt16.ofNat r.sig.frameBytes →
            m.memory.word (m.sp + wordOf r.sig.localsSize) = addressOf p value s.resume →
              Reaches p value m s.resume fun back =>
                Reaches p value back (s.resume ++ s.callee.cleanUp) fun last =>
                    last.sp = sp ∧ (slot.isSome = true → last.a = m.a)

/- A linked call keeps to the convention. -/
theorem Linked.convention {p : Program} {value : String → UInt16} {limit : Nat}
    {start : Code} {usual : Int64} {functions : Bindings}
    {sigs : List Signature} {d : Definition} {r : Routine} {s : CallSite}
    (h : Linked p value limit start r s)
    (hOf : r.Of usual p.frames functions sigs d)
    (hPlaces :
      ∀ d ∈ r.decls, d.directive = .equate → value d.name = wordOf d.value) :
    Convention p value limit start r s where
  enters := by
    intro m hAt hClear
    have hSP : m.sp = m.sp - UInt16.ofNat r.sig.frameBytes + UInt16.ofNat r.sig.frameBytes :=
      (UInt16.sub_add_cancel _ _).symm
    rcases h.passes hAt hSP hClear with ⟨words, hWords, hPassed⟩
    have hLength : words.length = r.sig.params.length := by
      rw [Context.length_words? hWords, h.count]
    have hFrame := r.sig.frameBytes_eq
    have hArgs : 2 * words.length ≤ r.sig.callBytes := by
      rw [hLength]
      exact Nat.le_add_right _ _
    have hFits := h.roomy.fits
    refine ⟨words, hWords, hLength, hPassed.bind fun next hNext hState => ?_⟩
    refine (h.enters hNext hState.1 hClear).mono fun last hLast => ?_
    rcases hLast with ⟨hBase, hMemory⟩
    refine ⟨hBase, ?_, ?_⟩
    · rw [hBase, h.wordOf_localsSize, hMemory]
      exact Memory.word_setWord ..
    · intro i _ _ hParam hWord
      rcases hOf.param hParam with ⟨target, hDecl, hFound⟩
      refine ⟨_, _, hFound, hDecl, ?_⟩
      have hValue : value target = UInt16.ofNat (r.sig.localBytes + 2 + 2 * i) := by
        rw [← h.roomy.wordOf_offset]
        exact hPlaces _ hDecl rfl
      have hI : i < words.length := (List.getElem?_eq_some_iff.mp hWord).1
      -- The return address is below the arguments.
      rw [hBase, hValue, hMemory, Memory.word_setWord_offset (by omega)
        (by omega) (by omega), hState.2]
      exact Memory.word_setWords (by omega) hWord
  returns := by
    intro outer slot rest hBody hSlot _ _ hClear hAt hSP hReturn
    rcases h.routine with ⟨further, hCode⟩
    have hPlace : p.code = start ++ r.head ++ outer ++ r.sig.leaving slot ++ (rest ++ further) := by
      rw [hCode, hBody]
      simp only [append_assoc]
    have hValue : ∀ target, slot = some target → r.sig.hasReturn = true ∧ value target =
              UInt16.ofNat (r.sig.localBytes + 2 + 2 * r.sig.params.length) := by
      intro _ hTarget
      rcases hOf.value hSlot hTarget with ⟨hHas, hDecl⟩
      refine ⟨hHas, ?_⟩
      rw [← h.roomy.wordOf_offset]
      exact hPlaces _ hDecl rfl
    rw [hSP, h.wordOf_localsSize] at hReturn
    refine (h.leaves hPlace hValue hAt hSP hReturn hClear).bind
      fun back hBack hState => .here hBack ?_
    refine (h.cleansUp hBack hState.1).mono fun last hLast => ?_
    refine ⟨hLast.1.trans (UInt16.sub_add_cancel _ _), fun hSome => ?_⟩
    rcases Option.isSome_iff_exists.mp hSome with ⟨target, hTarget⟩
    rw [hLast.2 (hValue target hTarget).1, hState.2 hSome]

end Compile

end Pep9
