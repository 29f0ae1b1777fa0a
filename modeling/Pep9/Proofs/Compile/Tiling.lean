import Mathlib
import Pep9.Proofs.Compile.Calls

/-
  The layout of frames. Locals, the return address, parameters
  and the place of the returned value follow each other without
  gaps, as long as their offsets are numbers of 64 bits, and
  each of their names is found at its own target.

  Key theorems: `Follow.covers`, `AllotsSlots.places`,
  `frameSlots_offsets`, `allocateFrame_tiles`.
-/

namespace Pep9

open List
open Listing (Declaration)
open Script (IsIdentifier)

namespace Compile

/- Some bytes in a row, from a first one on. -/
structure ByteRange where
  first : Int
  size : Int
deriving DecidableEq

namespace ByteRange

def Has (r : ByteRange) (k : Int) : Prop := r.first ≤ k ∧ k < r.first + r.size

def Apart (r s : ByteRange) : Prop := ∀ k, r.Has k → ¬ s.Has k

end ByteRange

/- Ranges each of which starts where the one before it ends. -/
def Follow (first last : Int) : List ByteRange → Prop
  | [] => first = last
  | r :: rest => r.first = first ∧ 0 ≤ r.size ∧ Follow (first + r.size) last rest

namespace Follow

variable {first middle last : Int} {ranges others : List ByteRange}

theorem append
    (h : Follow first middle ranges)
    (h' : Follow middle last others) :
    Follow first last (ranges ++ others) := by
  induction ranges generalizing first with
  | nil =>
    cases h
    exact h'
  | cons _ _ ih => exact ⟨h.1, h.2.1, ih h.2.2⟩

variable (h : Follow first last ranges)
include h

theorem le : first ≤ last := by
  induction ranges generalizing first with
  | nil => exact le_of_eq h
  | cons _ _ ih =>
    have hRest := ih h.2.2
    have hSize := h.2.1
    omega

/- Together they have all bytes between their two ends. -/
theorem covers (k : Int) :
    (∃ r ∈ ranges, r.Has k) ↔ first ≤ k ∧ k < last := by
  induction ranges generalizing first with
  | nil =>
    cases h
    constructor
    · rintro ⟨_, hR, _⟩
      cases hR
    · omega
  | cons r _ ih =>
    rcases h with ⟨rfl, _, hRest⟩
    have hEnd := hRest.le
    rw [exists_mem_cons_iff, ih hRest]
    unfold ByteRange.Has
    constructor
    · rintro (hHere | hThere)
      · omega
      · omega
    · intro hK
      by_cases hHere : k < r.first + r.size
      · exact .inl ⟨hK.1, hHere⟩
      · exact .inr ⟨by omega, hK.2⟩

/- No byte belongs to two of them. -/
theorem apart :
    ranges.Pairwise ByteRange.Apart := by
  induction ranges generalizing first with
  | nil => exact .nil
  | cons _ _ ih =>
    rcases h with ⟨rfl, _, hRest⟩
    refine .cons ?_ (ih hRest)
    intro s hS k hHere hThere
    have hBehind := ((hRest.covers k).mp ⟨s, hS, hThere⟩).1
    have hBefore := hHere.2
    omega

end Follow

section Places

variable {owner : String} {bindings : Bindings} {slots : List Slot} {decls : List Declaration}

/- The table has each slot under its declared name. -/
theorem Places.finds {table : SymbolTable}
    (h : Places owner table.data slots decls) :
    (slots.map fun s => table.dataTarget s.source) = decls.map fun d => .ok d.name := by
  induction h with
  | nil => rfl
  | cons hFound _ ih => rw [map_cons, map_cons, ih, SymbolTable.dataTarget, hFound]

variable (h : Places owner bindings slots decls)
include h

/- The declared values are the offsets of the slots. -/
theorem Places.values :
    decls.map Declaration.value = slots.map Slot.offset := by
  induction h with
  | nil => rfl
  | cons _ _ ih => rw [map_cons, map_cons, ih]

/- Places in a frame are numbers, and take no bytes. -/
theorem Places.directives :
    ∀ d ∈ decls, d.directive = .equate := by
  induction h with
  | nil => simp
  | cons _ _ ih =>
    intro d hD
    rcases mem_cons.mp hD with rfl | hD
    · rfl
    · exact ih d hD

/- Each declaration is of a slot, in the scope of its owner. -/
theorem Places.owners :
    ∀ d ∈ decls, ∃ s ∈ slots, bindings.find s.source =
        some ⟨s.source, d.name, .data, .local owner⟩ := by
  induction h with
  | nil => simp
  | cons hFound _ ih =>
    intro d hD
    rcases mem_cons.mp hD with rfl | hD
    · exact ⟨_, mem_cons_self, hFound⟩
    · rcases ih d hD with ⟨s, hS, hBound⟩
      exact ⟨s, mem_cons_of_mem _ hS, hBound⟩

/- A table keeps its targets apart, so places have their own. -/
theorem Places.nodup
    (hDistinct : Distinct bindings)
    (hSources : (slots.map Slot.source).Nodup) :
    (decls.map Declaration.name).Nodup := by
  induction h with
  | nil => exact nodup_nil
  | @cons _ _ _ _ hFound hRest ih =>
    rw [map_cons, nodup_cons] at hSources ⊢
    refine ⟨?_, ih hSources.2⟩
    intro hMem
    rcases mem_map.mp hMem with ⟨d, hD, hName⟩
    rcases hRest.owners d hD with ⟨s, hS, hBound⟩
    have hSame := hDistinct _ (Bindings.find_eq_some hFound).1 _
      (Bindings.find_eq_some hBound).1 hName.symm
    exact hSources.1 (mem_map.mpr ⟨s, hS, hSame.symm⟩)

end Places

/-
  A name that is bound in a function is found there, as bound
  before or anew, and no other name is changed.
-/
theorem Tidy.bindLocalAs {t bound : SymbolTable}
    {source name owner target : String}
    (h : Tidy t)
    (hBind : t.bindLocalAs source name owner = .ok (target, bound)) :
    Tidy bound ∧
      bound.data.find source = some ⟨source, target, .data, .local owner⟩ ∧
      ∀ other, other ≠ source → bound.data.find other = t.data.find other := by
  have hAnswer : Request.answer t (.bindLocal source name owner) = .ok (some target, bound) :=
    Result.map_eq_ok.mpr ⟨_, hBind, rfl⟩
  refine ⟨h.answer hAnswer, ?_⟩
  rcases SymbolTable.bindLocalAs_cases hBind with ⟨b, hFound, hScope, hTarget, rfl⟩ | ⟨_, _, _, rfl⟩
  · refine ⟨?_, fun _ _ => rfl⟩
    rcases h with ⟨_, hOrderly⟩
    rcases Bindings.find_eq_some hFound with ⟨hMem, hSource⟩
    have hKind := hOrderly.filed.kind .data b hMem
    rw [hFound, ← hSource, ← hTarget, ← hScope, ← hKind]
  · rw [(SymbolTable.bind_data rfl).1]
    refine ⟨Bindings.find_set_self _ _, ?_⟩
    intro _ hOther
    exact Bindings.find_set_of_ne hOther

/- All places are found in the end. -/
theorem AllotsSlots.places {owner : String} {t t' : SymbolTable}
    {slots : List Slot} {decls : List Declaration}
    (h : AllotsSlots owner t slots t' decls)
    (hTidy : Tidy t)
    (hNodup : (slots.map Slot.source).Nodup) :
    Places owner t'.data slots decls ∧ Tidy t' ∧
      ∀ source, source ∉ slots.map Slot.source → t'.data.find source = t.data.find source := by
  induction h with
  | nil => exact ⟨.nil, hTidy, fun _ _ => rfl⟩
  | @cons slot _ target _ bound _ _ hBind _ ih =>
    rw [map_cons, nodup_cons] at hNodup
    rcases hTidy.bindLocalAs hBind with ⟨hBound, hFound, hOthers⟩
    rcases ih (hBound.marked slot.special target) hNodup.2 with ⟨hPlaces, hLast, hKept⟩
    rw [(markIf_bindings _ target bound).1] at hKept
    refine ⟨.cons ?_ hPlaces, hLast, ?_⟩
    · rw [hKept _ hNodup.1]
      exact hFound
    · intro source hNot
      rw [map_cons, mem_cons, not_or] at hNot
      rw [hKept source hNot.2]
      exact hOthers source hNot.1

------------------------------------------------------------
-- Offsets
------------------------------------------------------------

/- The bytes of the locals before one of them. -/
def sizesBefore (locals : List Local) (k : Nat) : Int :=
  ((locals.take k).map fun l => l.size.toInt).sum

namespace Signature

/-
  Where the places of a function are: locals behind those
  before them, then, behind the return address, a word for each
  parameter and one for the returned value.
-/
def frameOffsets (sig : Signature) : List Int :=
  (List.range sig.locals.length).map (sizesBefore sig.locals)
    ++ ((List.range sig.params.length).map fun (i : Nat) =>
          sig.localsSize.toInt + 2 + 2 * (i : Int))
    ++ (if sig.hasReturn then
          [sig.localsSize.toInt + 2 + 2 * (sig.params.length : Int)]
        else
          [])

/-
  The ranges of the locals, the return address, the parameters
  and the returned value, when the places are at some offsets.
-/
def frameRanges (sig : Signature) (offsets : List Int) : List ByteRange :=
  zipWith ByteRange.mk (offsets.take sig.locals.length) (sig.locals.map fun l => l.size.toInt)
    ++ ⟨sig.localsSize.toInt, 2⟩ :: (offsets.drop sig.locals.length).map fun offset => ⟨offset, 2⟩

end Signature

theorem sizesBefore_cons
    (l : Local)
    (rest : List Local)
    (k : Nat) :
    sizesBefore (l :: rest) (k + 1) = l.size.toInt + sizesBefore rest k := by
  unfold sizesBefore
  rw [take_succ_cons, map_cons, sum_cons]

/- Each local is behind those before it. -/
theorem localSlots_offsets
    (offset : Int)
    (locals : List Local) :
    (localSlots (Int64.ofInt offset) locals).1.map Slot.offset =
      (List.range locals.length).map fun k =>
        Int64.ofInt (offset + sizesBefore locals k) := by
  induction locals generalizing offset with
  | nil => rfl
  | cons l _ ih =>
    have hNext : Int64.ofInt offset + l.size = Int64.ofInt (offset + l.size.toInt) := by
      rw [Int64.ofInt_add, Int64.ofInt_toInt]
    rw [localSlots, map_cons, hNext, ih, length_cons,
      range_succ_eq_map, map_cons, map_map]
    congr 1
    · simp [sizesBefore]
    · apply map_congr_left
      intro _ _
      rw [Function.comp_apply, sizesBefore_cons, Int.add_assoc]

/- Parameters are words, one behind the other. -/
theorem paramSlots_offsets
    (offset : Int)
    (params : List String) :
    (paramSlots (Int64.ofInt offset) params).1.map Slot.offset =
      (List.range params.length).map fun (i : Nat) =>
        Int64.ofInt (offset + 2 * (i : Int)) := by
  induction params generalizing offset with
  | nil => rfl
  | cons _ _ ih =>
    have hNext : Int64.ofInt offset + 2 = Int64.ofInt (offset + 2) := by
      rw [Int64.ofInt_add]
      rfl
    rw [paramSlots, map_cons, hNext, ih, length_cons,
      range_succ_eq_map, map_cons, map_map]
    congr 1
    · simp
    · apply map_congr_left
      intro _ _
      rw [Function.comp_apply]
      congr 1
      omega

/- The offsets of all places, as numbers of 64 bits. -/
theorem frameSlots_offsets (sig : Signature) :
    (frameSlots sig).map Slot.offset = sig.frameOffsets.map Int64.ofInt := by
  have hFirst : sig.localsSize + 2 = Int64.ofInt (sig.localsSize.toInt + 2) := by
    rw [Int64.ofInt_add, Int64.ofInt_toInt]
    rfl
  have hLast : sig.localsSize + 2 + Int64.ofNat (2 * sig.params.length) = Int64.ofInt
          (sig.localsSize.toInt + 2 + 2 * (sig.params.length : Int)) := by
    rw [hFirst, ← Int64.ofInt_eq_ofNat, ← Int64.ofInt_add]
    congr 1
  have hLocals := localSlots_offsets 0 sig.locals
  have hParams := paramSlots_offsets (sig.localsSize.toInt + 2) sig.params
  rw [← hFirst] at hParams
  rw [frameSlots_eq, Signature.frameOffsets]
  simp only [map_append, map_map]
  refine congrArg₂ (· ++ ·) (congrArg₂ (· ++ ·) (hLocals.trans (map_congr_left ?_)) hParams) ?_
  · intro _ _
    rw [Function.comp_apply, Int.zero_add]
  · split
    · rw [map_singleton, map_singleton, hLast]
    · rfl

/- The bytes of all locals. -/
def Signature.sizes (sig : Signature) : Int :=
  (sig.locals.map fun l => l.size.toInt).sum

section

variable {locals : List Local} (h : ∀ l ∈ locals, 0 < l.size.toInt)
include h

theorem sizesBefore_le (k : Nat) :
    0 ≤ sizesBefore locals k ∧ sizesBefore locals k ≤ (locals.map fun l => l.size.toInt).sum := by
  induction locals generalizing k with
  | nil => simp [sizesBefore]
  | cons l rest ih =>
    have hFirst := h l mem_cons_self
    have hRest := ih fun other hOther => h other (mem_cons_of_mem _ hOther)
    rw [map_cons, sum_cons]
    cases k with
    | zero =>
      have hAll := hRest 0
      have hNone : sizesBefore (l :: rest) 0 = 0 := rfl
      omega
    | succ k =>
      have hAll := hRest k
      rw [sizesBefore_cons]
      omega

/- The locals follow each other without a gap. -/
theorem follow_locals (first : Int) :
    Follow first (first + (locals.map fun l => l.size.toInt).sum) (zipWith ByteRange.mk
        ((List.range locals.length).map fun k => first + sizesBefore locals k)
        (locals.map fun l => l.size.toInt)) := by
  induction locals generalizing first with
  | nil => exact (Int.add_zero first).symm
  | cons l _ ih =>
    have hRest := ih (fun other hOther => h other (mem_cons_of_mem _ hOther))
      (first + l.size.toInt)
    rw [length_cons, range_succ_eq_map, map_cons,
      map_cons, map_map, sum_cons, zipWith_cons_cons]
    refine ⟨?_, le_of_lt (h l mem_cons_self), ?_⟩
    · simp [sizesBefore]
    · rw [← Int.add_assoc]
      convert hRest using 4
      rw [Function.comp_apply, sizesBefore_cons, Int.add_assoc]

end

/- Words follow each other without a gap. -/
theorem follow_words
    (first : Int)
    (n : Nat) :
    Follow first (first + 2 * (n : Int))
      ((List.range n).map fun (i : Nat) => ⟨first + 2 * (i : Int), 2⟩) := by
  induction n with
  | zero => exact (Int.add_zero first).symm
  | succ n ih =>
    rw [range_succ, map_append, map_singleton]
    refine ih.append ⟨rfl, Int.natCast_nonneg 2, ?_⟩
    change first + 2 * (n : Int) + 2 = first + 2 * ((n + 1 : Nat) : Int)
    omega

section Frames

variable {sig : Signature}

/- The last place is at the end of the frame. -/
theorem last_mem_frameOffsets (h : sig.callBytes ≠ 0) :
    sig.localsSize.toInt + sig.callBytes ∈ sig.frameOffsets := by
  unfold Signature.callBytes at h ⊢
  unfold Signature.frameOffsets
  by_cases hReturn : sig.hasReturn = true
  · simp only [if_pos hReturn]
    refine mem_append_right _ (mem_singleton.mpr ?_)
    omega
  · simp only [if_neg hReturn] at h ⊢
    refine mem_append_left _ (mem_append_right _ ?_)
    refine mem_map.mpr ⟨sig.params.length - 1, ?_, ?_⟩
    · rw [mem_range]
      omega
    · omega

variable (hSizes : ∀ l ∈ sig.locals, 0 < l.size.toInt)
  (hTotal : sig.sizes = sig.localsSize.toInt)
include hSizes hTotal

/- Where the offsets are exact, nothing overlaps and nothing is left. -/
theorem follow_frame :
    Follow 0 (sig.localsSize.toInt + 2 + sig.callBytes) (sig.frameRanges sig.frameOffsets) := by
  have hLocals := follow_locals hSizes 0
  rw [show (sig.locals.map fun l => l.size.toInt).sum = _ from hTotal, Int.zero_add] at hLocals
  simp only [Int.zero_add] at hLocals
  have hAddress : Follow sig.localsSize.toInt (sig.localsSize.toInt + 2)
        [⟨sig.localsSize.toInt, 2⟩] := ⟨rfl, Int.natCast_nonneg 2, rfl⟩
  have hParams := follow_words (sig.localsSize.toInt + 2) sig.params.length
  have hCount : ((List.range sig.locals.length).map (sizesBefore sig.locals)).length =
        sig.locals.length := by
    rw [length_map, length_range]
  unfold Signature.frameRanges Signature.frameOffsets
  rw [append_assoc, take_left' hCount, drop_left' hCount,
    map_append, map_map]
  refine hLocals.append (hAddress.append (hParams.append ?_))
  unfold Signature.callBytes
  split
  · refine ⟨rfl, Int.natCast_nonneg 2, ?_⟩
    change sig.localsSize.toInt + 2 + 2 * (sig.params.length : Int) + 2 = _
    omega
  · rw [map_nil]
    change _ = _
    omega

/- No place starts behind the last one of the frame. -/
theorem mem_frameOffsets {offset : Int}
    (h : offset ∈ sig.frameOffsets) :
    0 ≤ offset ∧ offset ≤ sig.localsSize.toInt + sig.callBytes := by
  have hLocals := sizesBefore_le hSizes
  have hNonneg := (hLocals 0).1.trans (hLocals 0).2
  rw [show (sig.locals.map fun l => l.size.toInt).sum = _ from hTotal] at hLocals hNonneg
  unfold Signature.callBytes
  unfold Signature.frameOffsets at h
  rcases mem_append.mp h with hBefore | hValue
  · rcases mem_append.mp hBefore with hLocal | hParam
    · rcases mem_map.mp hLocal with ⟨k, _, rfl⟩
      have hK := hLocals k
      omega
    · rcases mem_map.mp hParam with ⟨_, hI, rfl⟩
      rw [mem_range] at hI
      omega
  · split at hValue
    · next hReturn =>
      rw [if_pos hReturn, mem_singleton.mp hValue]
      omega
    · cases hValue

end Frames

------------------------------------------------------------
-- Frames
------------------------------------------------------------

/-
  A frame whose places have names of their own: each is found
  at the name of its declaration, and no two are the same.
-/
structure FrameNamed (sig : Signature) (frame : FrameAllocation) : Prop where
  equates : ∀ d ∈ frame.decls, d.directive = .equate
  targets : (frame.decls.map Declaration.name).Nodup
  found : sig.frameSources.map frame.table.dataTarget = frame.decls.map fun d => .ok d.name

/-
  A frame with its places where they belong. Their ranges and
  that of the return address are apart, and have all bytes of
  the frame.
-/
structure FrameTiled (sig : Signature) (frame : FrameAllocation) : Prop where
  offsets : (frame.decls.map fun d => d.value.toInt) = sig.frameOffsets
  apart : (sig.frameRanges (frame.decls.map fun d => d.value.toInt)).Pairwise ByteRange.Apart
  covers : ∀ k, (∃ r ∈ sig.frameRanges (frame.decls.map fun d => d.value.toInt), r.Has k) ↔
      0 ≤ k ∧ k < sig.localsSize.toInt + 2 + sig.argBytes.toInt

/- Offsets are exact if the last one is, and then they tile. -/
theorem frameTiled_iff {sig : Signature} {frame : FrameAllocation}
    (hSizes : ∀ l ∈ sig.locals, 0 < l.size.toInt)
    (hTotal : sig.sizes = sig.localsSize.toInt)
    (hValues : frame.decls.map Declaration.value = sig.frameOffsets.map Int64.ofInt) :
    FrameTiled sig frame ↔ sig.localsSize.toInt + sig.callBytes < 2 ^ 63 := by
  constructor
  · intro hTiled
    by_cases hNone : sig.callBytes = 0
    · have hMost := sig.localsSize.toInt_lt
      omega
    · have hLast := last_mem_frameOffsets hNone
      rw [← hTiled.offsets] at hLast
      rcases mem_map.mp hLast with ⟨d, _, hValue⟩
      rw [← hValue]
      exact d.value.toInt_lt
  · intro _
    have hExact : (frame.decls.map fun d => d.value.toInt) = sig.frameOffsets := by
      rw [← Function.comp_def Int64.toInt, ← map_map, hValues, map_map]
      conv_rhs => rw [← map_id sig.frameOffsets]
      apply map_congr_left
      intro _ hOffset
      rcases mem_frameOffsets hSizes hTotal hOffset with ⟨_, _⟩
      exact Int64.toInt_ofInt_of_le (by omega) (by omega)
    have hNonneg : 0 ≤ sig.localsSize.toInt := by
      rw [← hTotal]
      exact (sizesBefore_le hSizes 0).1.trans (sizesBefore_le hSizes 0).2
    have hBytes : sig.argBytes.toInt = sig.callBytes := by
      rw [sig.argBytes_eq, Int64.toInt_ofNat_of_lt (by omega)]
    have hFollow := follow_frame hSizes hTotal
    rw [← hExact] at hFollow
    refine ⟨hExact, hFollow.apart, ?_⟩
    intro k
    rw [hBytes]
    exact hFollow.covers k

/-
  In every table that requests lead to, whatever its marks, a
  frame is laid out by names of its own. Its places are where
  they belong, one behind the other, exactly if the offset of
  the last one is a number of 64 bits.
-/
theorem allocateFrame_tiles {requests : List Request} {t : SymbolTable}
    {past marks : List String} {sig : Signature}
    (hTable : Request.answers requests = .ok (t, past))
    (hNames : ∀ name ∈ sig.locals.map Local.name ++ sig.params, IsIdentifier name)
    (hNodup : (sig.locals.map Local.name ++ sig.params).Nodup)
    (hSizes : ∀ l ∈ sig.locals, 0 < l.size.toInt)
    (hTotal : sig.sizes = sig.localsSize.toInt)
    (hDone : (allocateFrame { t with special := marks } sig).error = none) :
    FrameNamed sig (allocateFrame { t with special := marks } sig) ∧
      (allocateFrame { t with special := marks } sig).decls.map Declaration.value =
        sig.frameOffsets.map Int64.ofInt ∧
      (FrameTiled sig (allocateFrame { t with special := marks } sig) ↔
        sig.localsSize.toInt + sig.callBytes < 2 ^ 63) := by
  have hTidy : Tidy { t with special := marks } := Tidy.remark ⟨past, Orderly.answers hTable⟩ marks
  have hSources : ((frameSlots sig).map Slot.source).Nodup := by
    rw [frameSlots_frameSources]
    exact frameSources_nodup hNames hNodup
  rcases AllotsSlots.places (bindSlots_allots hDone) hTidy hSources with ⟨hPlaces, hLast, _⟩
  change Places sig.name (allocateFrame { t with special := marks } sig).table.data (frameSlots sig)
    (allocateFrame { t with special := marks } sig).decls at hPlaces
  have hValues := hPlaces.values.trans (frameSlots_offsets sig)
  refine ⟨⟨hPlaces.directives, hPlaces.nodup hLast.distinct hSources, ?_⟩, hValues, ?_⟩
  · rw [← frameSlots_frameSources, map_map]
    exact hPlaces.finds
  · exact frameTiled_iff hSizes hTotal hValues

/- A function whose names are much like its own. -/
def crowded : Signature where
  name := "count"
  params := ["count"]
  hasReturn := true
  locals := [⟨"counts_", 6⟩, ⟨"counter", 2⟩]
  slicing := []

theorem allocateFrame_tiles_crowded :
    ∃ t past, Request.answers
          [.bindGlobal .data "counts_", .bindGlobal .label "count", .child] = .ok (t, past) ∧
      (allocateFrame { t with special := ["counts_"] } crowded).decls =
        [⟨"co_unts_", .equate, 0⟩, ⟨"co_count", .equate, 6⟩,
          ⟨"co_counu", .equate, 10⟩, ⟨"co_retVa", .equate, 12⟩] ∧
      FrameNamed crowded
        (allocateFrame { t with special := ["counts_"] } crowded) ∧
      FrameTiled crowded
        (allocateFrame { t with special := ["counts_"] } crowded) := by
  have hAnswers : (Request.answers [.bindGlobal .data "counts_", .bindGlobal .label "count",
            .child]).map (fun answer =>
          ((allocateFrame { answer.1 with special := ["counts_"] } crowded).decls,
            (allocateFrame { answer.1 with special := ["counts_"] } crowded).error)) =
        .ok ([⟨"co_unts_", .equate, 0⟩, ⟨"co_count", .equate, 6⟩,
          ⟨"co_counu", .equate, 10⟩, ⟨"co_retVa", .equate, 12⟩], none) := by
    decide +kernel
  rcases Result.map_eq_ok.mp hAnswers with ⟨⟨t, past⟩, hTable, hBoth⟩
  rcases Prod.mk.inj hBoth with ⟨hDecls, hDone⟩
  have hNames : ∀ name ∈ crowded.locals.map Local.name ++ crowded.params, IsIdentifier name := by
    have hName {name : String} {rest : List Char} (hText : name.toList = 'c' :: rest)
        (hChars : ∀ c ∈ name.toList, Script.Lexer.isWordChar c = true)
        (hWord : Script.Kind.keyword? name = none) : IsIdentifier name :=
      ⟨⟨'c', rest, hText, by decide⟩, hChars, hWord⟩
    change ∀ name ∈ ["counts_", "counter", "count"], IsIdentifier name
    rw [forall_mem_cons, forall_mem_cons, forall_mem_singleton]
    have hChars {cs : List Char} (h : cs.all Script.Lexer.isWordChar = true) :=
      all_eq_true.mp h
    exact ⟨hName rfl (hChars rfl) rfl, hName rfl (hChars rfl) rfl, hName rfl (hChars rfl) rfl⟩
  rcases allocateFrame_tiles hTable hNames (by decide) (by decide)
      (by decide) hDone with ⟨hNamed, _, hTiled⟩
  exact ⟨t, past, hTable, hDecls, hNamed, hTiled.mpr (by decide)⟩

/-
  A local of as many bytes as a number can count: the places
  behind it are at numbers that wrap around.
-/
def overfull : Signature where
  name := "f"
  params := ["p"]
  hasReturn := true
  locals := [⟨"a", 9223372036854775807⟩]
  slicing := []

theorem overfull_wraps :
    overfull.sizes = overfull.localsSize.toInt ∧
      (allocateFrame .empty overfull).error = none ∧
      (allocateFrame .empty overfull).decls =
        [⟨"f_a", .equate, 0⟩, ⟨"f_p", .equate, -9223372036854775807⟩,
          ⟨"f_retVa", .equate, -9223372036854775805⟩] ∧
      overfull.frameOffsets =
        [0, 9223372036854775809, 9223372036854775811] ∧
      ¬ FrameTiled overfull (allocateFrame .empty overfull) := by
  refine ⟨by decide, by decide +kernel, by decide +kernel, by decide, ?_⟩
  intro hTiled
  exact absurd hTiled.offsets (by decide +kernel)

end Compile

end Pep9
