import Pep9.Proofs.Compile.Executing

/-
  The words that expressions stand for, given the values of
  names, the stack pointer and memory.

  Key theorems: `operand_of_plain`, `operand_of_indexed`.
-/

namespace Pep9

open Isa (Addressing)
open Machine (Memory)
open Script (Expr wordOf)

variable {memory : Memory} {mode : Addressing} {sp : UInt16} {value : String → UInt16}

namespace Script

/- Words are numbers without their higher bits. -/
theorem ofInt_bmod (n : Int) :
    UInt16.ofInt (n.bmod (2 ^ 64)) = UInt16.ofInt n := by
  have hMod : n.bmod (2 ^ 64) % 2 ^ 16 = n % 2 ^ 16 := by
    have hDvd : (2 ^ 16 : Int) ∣ (2 ^ 64 : Nat) := ⟨2 ^ 48, by decide⟩
    rw [← Int.emod_emod_of_dvd (n.bmod (2 ^ 64)) hDvd, Int.bmod_emod, Int.emod_emod_of_dvd n hDvd]
  unfold UInt16.ofInt
  rw [hMod]

theorem wordOf_add (m n : Int64) : wordOf (m + n) = wordOf m + wordOf n := by
  unfold wordOf
  rw [Int64.toInt_add, ofInt_bmod, UInt16.ofInt_add]

theorem wordOf_neg (n : Int64) : wordOf (-n) = -wordOf n := by
  unfold wordOf
  rw [Int64.toInt_neg, ofInt_bmod, UInt16.ofInt_neg]

theorem wordOf_ofNat (n : Nat) : wordOf (Int64.ofNat n) = UInt16.ofNat n := by
  have hNat : UInt16.ofInt (n : Int) = UInt16.ofNat n := by
    refine UInt16.toNat_inj.mp ?_
    unfold UInt16.ofInt
    rw [UInt16.toNat_ofNat', UInt16.toNat_ofNat']
    omega
  unfold wordOf
  rw [Int64.toInt_ofNat']
  exact (ofInt_bmod n).trans hNat

end Script

namespace Compile

/- Where variables are, if they are anywhere. -/
abbrev Sites := String → Option Reference

/- The places of the variables in a context. -/
def Context.place (ctx : Context) : Sites := fun x => (ctx.reference x).toOption

theorem Context.place_of_reference {ctx : Context} {x : String}
    {ref : Reference}
    (h : ctx.reference x = .ok ref) :
    ctx.place x = some ref := by
  unfold Context.place
  rw [h]
  rfl

/-
  What a variable stands for: the word in its place or, of an
  array, its address.
-/
def Reference.word? (value : String → UInt16) (sp : UInt16) (memory : Memory)
    (ref : Reference) : Option UInt16 :=
  match ref.mode with
  | .immediate => some (value ref.target)
  | .direct => some (memory.word (value ref.target))
  | .stackRelative => some (memory.word (sp + value ref.target))
  | .indexed => some (value ref.target)
  | .stackIndexed => some (sp + value ref.target)
  | .stackDeferredIndexed => some (memory.word (sp + value ref.target))
  | _ => none

/-
  What an argument stands for, given the values of names, the
  stack pointer and memory. An element is the word at its
  address.
-/
def Context.word? (ctx : Context) (value : String → UInt16) (sp : UInt16)
    (memory : Memory) : Expr → Option UInt16
  | .literal n => some (wordOf n)
  | .name id => (ctx.place id).bind (Reference.word? value sp memory)
  | .index base position => do
      let address ← ctx.word? value sp memory base
      let index ← ctx.word? value sp memory position
      return memory.word (address + 2 * index)
  | .arith op left right => do
      let first ← ctx.word? value sp memory left
      let second ← ctx.word? value sp memory right
      op.word? first second
  | _ => none

/-
  What the arguments of a call stand for, with their places
  from an address on. The places of those before are written
  when an argument is computed.
-/
def Context.words? (ctx : Context) (value : String → UInt16) (sp : UInt16)
    (address : UInt16) (memory : Memory) : List Expr → Option (List UInt16)
  | [] => some []
  | arg :: rest => do
      let w ← ctx.word? value sp memory arg
      let others ← ctx.words? value sp (address + 2) (memory.setWord address w) rest
      return w :: others

theorem Context.length_words? {ctx : Context} {address : UInt16}
    {args : List Expr} {words : List UInt16}
    (h : ctx.words? value sp address memory args = some words) :
    words.length = args.length := by
  induction args generalizing address memory words with
  | nil =>
    cases h
    rfl
  | cons _ _ ih =>
    rcases Option.bind_eq_some_iff.mp h with ⟨_, _, h₁⟩
    rcases Option.bind_eq_some_iff.mp h₁ with ⟨_, hOthers, hDone⟩
    cases hDone
    rw [List.length_cons, List.length_cons, ih hOthers]

section References

variable {ctx : Context} {id : String} {ref : Reference}

theorem word?_name (h : ctx.reference id = .ok ref) :
    ctx.word? value sp memory (.name id) = ref.word? value sp memory := by
  rw [Context.word?, Context.place_of_reference h]
  rfl

/- A variable that is no array is read where it is. -/
theorem operand_of_plain
    (value : String → UInt16)
    (m : Machine)
    (hMode : ref.mode.addressing? = some mode)
    (hPlain : ref.mode.isIndexed = false) :
    ref.word? value m.sp m.memory = some (m.operand (value ref.target) mode) := by
  unfold Reference.word?
  cases hRef : ref.mode with
  | immediate | direct | stackRelative =>
    rw [hRef] at hMode
    cases hMode
    rfl
  | indexed | stackIndexed | stackDeferredIndexed =>
    rw [hRef] at hPlain
    cases hPlain
  | none | reserved code =>
    rw [hRef] at hMode
    cases hMode

/- An array is read at its address and the index register. -/
theorem operand_of_indexed
    (value : String → UInt16)
    (m : Machine)
    (hMode : ref.mode.addressing? = some mode)
    (hIndexed : ref.mode.isIndexed = true) :
    ∃ address, ref.word? value m.sp m.memory = some address ∧ m.operand (value ref.target) mode =
          m.memory.word (address + m.x) := by
  unfold Reference.word?
  cases hRef : ref.mode with
  | indexed | stackIndexed | stackDeferredIndexed =>
    rw [hRef] at hMode
    cases hMode
    exact ⟨_, rfl, rfl⟩
  | none | immediate | direct | stackRelative | reserved code =>
    rw [hRef] at hIndexed
    cases hIndexed

end References

end Compile

end Pep9
