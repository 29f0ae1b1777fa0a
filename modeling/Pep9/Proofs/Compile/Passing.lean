import Pep9.Proofs.Compile.Activations

/-
  How a call passes its arguments, carried out on any state of
  the machine. The words that the arguments stand for are left
  below the stack pointer, in the order of the arguments, and
  are found in the places of the parameters when the function
  has been entered.

  Key theorems: `argsCode_behind`, `Linked.passed`.
-/

namespace Pep9

open List Result
open Listing (Program)
open Machine (offset_add)
open Script (Expr wordOf)

variable {back front : List Expr} {first rest : Code}

namespace Compile

section Arguments

variable {ctx : Context}

/- The code of the arguments behind some others. -/
theorem argsCode_behind {slot : Int64}
    (hMade : argsCode ctx slot (front ++ back) = .ok (first ++ rest))
    (hFront : argsCode ctx slot front = .ok first) :
    argsCode ctx (slot + Int64.ofNat (2 * front.length)) back = .ok rest := by
  induction front generalizing slot first with
  | nil =>
    cases hFront
    have hSlot : slot + Int64.ofNat (2 * 0) = slot := Int64.add_zero slot
    rw [length_nil, hSlot]
    exact hMade
  | cons arg front ih =>
    rw [cons_append, argsCode_cons] at hMade
    rw [argsCode_cons] at hFront
    rcases seq hMade with ⟨code, hCode, h₁⟩
    rcases seq h₁ with ⟨others, hOthers, hDone⟩
    rcases seq hFront with ⟨_, hCode', h₂⟩
    rcases seq h₂ with ⟨others', hOthers', hDone'⟩
    cases hCode.symm.trans hCode'
    cases hDone'
    have hSplit : code ++ others = code ++ (others' ++ rest) := by
      rw [← append_assoc]
      exact Except.ok.inj hDone
    rw [append_cancel_left hSplit] at hOthers
    have hSlot : slot + Int64.ofNat (2 * (arg :: front).length) =
          slot + 2 + Int64.ofNat (2 * front.length) := by
      rw [length_cons, Nat.mul_succ, Nat.add_comm, Int64.ofNat_add, ← Int64.add_assoc]
      rfl
    rw [hSlot]
    exact ih hOthers hOthers'

end Arguments

section Calls

variable {p : Program} {value : String → UInt16} {limit : Nat} {start : Code}
  {r : Routine} {s : CallSite} {m entered : Machine}

/- The code of a call behind some of its arguments. -/
def CallSite.remaining (s : CallSite) (rest : Code) : Code :=
  rest ++ adjustStack .subsp s.callee.sig.argBytes ++ [.jump .call s.callee.label]

/- Bytes for the arguments are taken from the stack. -/
theorem carriesAll_sub {bytes : Int64} {next : Machine}
    (hBytes : 0 ≤ bytes)
    (h : Machine.CarriesAll value (adjustStack .subsp bytes) m next) :
    next.sp = m.sp - wordOf bytes ∧ next.memory = m.memory := by
  unfold adjustStack at h
  by_cases hPositive : bytes > 0
  · rw [if_pos hPositive] at h
    cases h with
    | cons hFirst hRest =>
      cases hRest with
      | nil =>
        have hFitting : Fitting (.of .subsp (.number bytes) .immediate) :=
          .general rfl nofun rfl fun _ => rfl
        have hMoved := Machine.obey_sinks hFitting (.inl rfl) rfl rfl (hFirst.obey_eq hFitting)
        exact hMoved
  · rw [if_neg hPositive] at h
    have hZero : bytes = 0 := Int64.le_antisymm (Int64.not_lt.mp hPositive) hBytes
    cases h with
    | nil =>
      rw [hZero]
      exact ⟨(UInt16.sub_zero _).symm, rfl⟩

/-
  An argument is where the function has the place of its
  parameter when it has been entered.
-/
theorem Linked.passed {arg : Expr} {w : UInt16}
    (h : Linked p value limit start r s)
    (hArgs : s.args = front ++ arg :: back)
    (hFront : argsCode s.ctx s.callee.firstSlot front = .ok first)
    (hStores : s.stores = first ++ rest)
    (hWord : s.ctx.word? value m.sp m.memory arg = some w)
    (hCarries : Machine.CarriesAll value (s.remaining rest) m entered) :
    entered.memory.word (entered.sp - UInt16.ofNat r.sig.localBytes
          + UInt16.ofNat (r.sig.localBytes + 2 + 2 * front.length)) =
      w := by
  have hFits := h.roomy.fits
  have hFrame := r.sig.frameBytes_eq
  have hCount : 2 * (front ++ arg :: back).length ≤ r.sig.callBytes := by
    rw [← hArgs, h.count]
    exact Nat.le_add_right _ _
  rw [length_append, length_cons] at hCount
  have hBytes : 0 ≤ s.callee.sig.argBytes := by
    rw [h.sig_eq, Signature.argBytes_eq]
    exact ofNat_nonneg (by omega)
  have hFitting : ∀ i ∈ s.remaining rest, Fitting i := by
    intro i hI
    refine h.fitting i ?_
    rw [h.site, CallSite.code, CallSite.upTo, hStores]
    unfold CallSite.remaining at hI
    simp only [mem_append, mem_cons, not_mem_nil, or_false] at hI ⊢
    tauto
  -- Everything is told by its distance from the base of the frame.
  obtain ⟨base, hSP⟩ : ∃ base, m.sp = base + UInt16.ofNat r.sig.frameBytes :=
    ⟨_, (UInt16.sub_add_cancel _ _).symm⟩
  rcases h.firstSlot_eq hSP with ⟨hFirstSlot, hSub⟩
  have hSlot : m.sp + wordOf (s.callee.firstSlot + Int64.ofNat (2 * front.length)) =
        base + UInt16.ofNat (r.sig.localBytes + 2 + 2 * front.length) := by
    rw [Script.wordOf_add, ← UInt16.add_assoc, hFirstSlot, Script.wordOf_ofNat, offset_add]
  have hMade := h.stores
  rw [hArgs, hStores] at hMade
  rcases argsCode_fills (argsCode_behind hMade hFront) m with ⟨words, _, hWords, hFills⟩
  have hLength := Context.length_words? hWords
  rw [length_cons] at hLength
  have hHere : words[0]? = some w := by
    rw [Context.words?, hWord] at hWords
    rcases Option.bind_eq_some_iff.mp hWords with ⟨_, hSame, h₁⟩
    rcases Option.bind_eq_some_iff.mp h₁ with ⟨_, _, hDone⟩
    cases hSame
    cases hDone
    rfl
  -- The words are stored, the bytes taken, and the function is called.
  rcases hCarries.split with ⟨freed, hBefore, hCall⟩
  rcases hBefore.split with ⟨_, hRest, hTaken⟩
  have hSame := (hRest.obeyAll_eq fun i hI => hFitting i
    (mem_append_left _ (mem_append_left _ hI))).symm.trans hFills.obeys
  cases hSame
  rcases carriesAll_sub hBytes hTaken with ⟨hFreed, hKept⟩
  rw [hFills.sp, h.sig_eq, hSub] at hFreed
  rw [hFills.memory, hSlot] at hKept
  cases hCall with
  | cons hOnly hNone =>
    cases hNone with
    | nil =>
      have hJump := hFitting _ (mem_append_right _ mem_cons_self)
      rcases hOnly.called hJump rfl with ⟨_, hTop, _, hMemory⟩
      have hBelow : freed.sp - 2 = base + UInt16.ofNat r.sig.localBytes := by
        rw [hFreed]
        exact Machine.offset_sub ..
      rw [hTop, hMemory, hBelow, UInt16.add_sub_cancel,
        Machine.Memory.word_setWord_offset (by omega) (by omega) (by omega), hKept]
      exact Machine.Memory.word_setWords (i := 0) (by omega) hHere

end Calls

end Compile

end Pep9
