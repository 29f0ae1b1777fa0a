import Mathlib.Data.Fintype.BigOperators
import Pep9.Proofs.Compile.StackLevel

/-
  The frames of functions. Every place of a frame has a target
  of its own. Targets are short, so that there are not too
  many places for their bytes to be counted.

  Key theorems: `length_le_of_targets`,
  `EnterFacts.countable`.
-/

namespace Pep9

open List
open Listing (Declaration)
open Script (Stmt)
open Script.Lexer (isWordChar)

variable {name' : String}

namespace Compile

/- A character of a target as a number, and zero behind it. -/
def letterAt (name : String) (k : Nat) : Nat :=
  match name.toList[k]? with
  | none => 0
  | some c => c.toNat + 1

theorem toNat_lt_of_isWordChar {c : Char}
    (h : isWordChar c = true) :
    c.toNat < 128 := by
  have hSmall := Char.utf8Size_eq_one_iff.mp (utf8Size_of_isWordChar h)
  exact Nat.lt_succ_of_le hSmall

variable {name : String}

theorem IsTarget.letterAt_lt
    (h : IsTarget name)
    (k : Nat) :
    letterAt name k < 129 := by
  unfold letterAt
  split
  · decide
  · next c hAt =>
    have hSmall := toNat_lt_of_isWordChar (h.chars c (mem_of_getElem? hAt))
    exact Nat.succ_lt_succ hSmall

/- The numbers tell which character there is. -/
theorem getElem?_of_letterAt {k : Nat}
    (h : letterAt name k = letterAt name' k) :
    name.toList[k]? = name'.toList[k]? := by
  unfold letterAt at h
  split at h
  · next hAt =>
    split at h
    · next hAt' => rw [hAt, hAt']
    · cases h
  · next c hAt =>
    split at h
    · cases h
    · next c' hAt' =>
      rw [hAt, hAt', Char.toNat_inj.mp (Nat.succ.inj h)]

def letters (name : String) : Fin 8 → Fin 129 :=
  fun k => Fin.ofNat 129 (letterAt name k)

theorem IsTarget.eq_of_letters
    (h : IsTarget name)
    (h' : IsTarget name')
    (hEq : letters name = letters name') :
    name = name' := by
  refine String.toList_inj.mp (ext_getElem? fun k => ?_)
  by_cases hK : k < 8
  · have hSame := congrArg Fin.val (congrFun hEq ⟨k, hK⟩)
    unfold letters at hSame
    rw [Fin.val_ofNat, Fin.val_ofNat, Nat.mod_eq_of_lt (h.letterAt_lt k),
      Nat.mod_eq_of_lt (h'.letterAt_lt k)] at hSame
    exact getElem?_of_letterAt hSame
  · rw [getElem?_eq_none (h.short.trans (Nat.not_lt.mp hK)),
      getElem?_eq_none (h'.short.trans (Nat.not_lt.mp hK))]

/- There are only so many targets. -/
theorem length_le_of_targets {names : List String}
    (hNodup : names.Nodup)
    (hTargets : ∀ n ∈ names, IsTarget n) :
    names.length ≤ 129 ^ 8 := by
  have hNumbers : (names.map letters).Nodup := by
    refine hNodup.map_on fun n hN n' hN' hEq => ?_
    exact (hTargets n hN).eq_of_letters (hTargets n' hN') hEq
  have hCard := hNumbers.length_le_card
  rw [length_map, Fintype.card_fun, Fintype.card_fin] at hCard
  exact hCard

theorem Places.length_eq {owner : String} {bindings : Bindings}
    {slots : List Slot} {decls : List Declaration}
    (h : Places owner bindings slots decls) :
    slots.length = decls.length := by
  induction h with
  | nil => rfl
  | cons _ _ ih => rw [length_cons, length_cons, ih]

theorem params_le_slots (sig : Signature) :
    sig.params.length ≤ (frameSlots sig).length := by
  have hPlaces := congrArg List.length (frameSlots_frameSources sig)
  unfold Signature.frameSources at hPlaces
  rw [length_map, length_append, length_append] at hPlaces
  omega

/- Every parameter has a target, so they are not too many. -/
theorem EnterFacts.countable {g g' : Generator} {params : List String}
    {body : List Stmt} {entry : Generator.Entry}
    {parts : EnterParts g name params body entry g'}
    (facts : EnterFacts parts) :
    entry.sig.Countable := by
  have hSlots := params_le_slots entry.sig
  have hTargets := length_le_of_targets facts.frame.supplies.nodup facts.frame.supplies.targets
  rw [facts.frame.places.length_eq] at hSlots
  rw [length_map] at hTargets
  unfold Signature.Countable
  omega

end Compile

end Pep9
