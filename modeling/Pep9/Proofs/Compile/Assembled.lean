import Pep9.Proofs.Assembly.Image

/-
  Compiled programs as object code. The assembler reads every
  line of their listings as it was written, so that the bytes
  and the values of all names follow from the program.

  Key theorems: `Emits.framed`, `Facts.ready`, `Facts.image`.
-/

namespace Pep9

open List
open Listing (Declaration Frame)
open Script (Stmt)

namespace Compile

/- A frame with the name of a function and only offsets. -/
def Framed (f : Frame) : Prop :=
  '\n' ∉ f.function.toList ∧ ∀ d ∈ f.decls, d.directive = .equate

/- No name of a script has a line break in it. -/
theorem ne_newline_of_isIdentifier {name : String}
    (h : Script.IsIdentifier name) :
    '\n' ∉ name.toList := by
  intro hMem
  have hWord := h.chars '\n' hMem
  revert hWord
  decide

theorem Emits.framed {g g' : Generator} {stmts : List Stmt} {code : Code}
    (h : Emits g stmts code g')
    (hNamed : Script.WellNamed stmts)
    (hFrames : ∀ f ∈ g.frames, Framed f) :
    ∀ f ∈ g'.frames, Framed f := by
  refine h.kept (I := fun g => ∀ f ∈ g.frames, Framed f)
    ⟨fun hSteady hG => hSteady.frames ▸ hG, ?_, fun _ hG => hG⟩ hNamed hFrames
  intro _ _ _ _ _ _ parts hName _ hG f hF
  rw [congrArg Generator.frames parts.after] at hF
  rcases mem_append.mp hF with hF | hF
  · exact hG f hF
  · rw [mem_singleton.mp hF]
    refine ⟨ne_newline_of_isIdentifier hName, fun d hD => ?_⟩
    rcases (bindSlots_allots parts.complete).declared d hD with ⟨_, _, _, rfl⟩
    rfl

section Parts

variable {options : Options} {stmts : List Stmt} {compiled : Compiled}
  {parts : Parts options .empty stmts compiled}

variable (facts : Facts parts)
include facts

/- The storage of a program is laid out by known directives. -/
theorem Facts.directives {d : Declaration}
    (hD : d ∈ compiled.program.data) :
    ∀ text, d.directive ≠ .other text := by
  intro _ hOther
  have hName : d.name ∈ parts.bound.data.map Binding.target := by
    rw [facts.allocated.targets]
    exact mem_map_of_mem hD
  rcases mem_map.mp hName with ⟨b, hB, hTarget⟩
  rcases facts.variable hB with ⟨v, hVar⟩
  have hEq : d = v.storage.declaration b.target := by
    refine facts.declaration_eq hD hVar.declared ?_
    rw [Storage.declaration_name, hTarget]
  rw [hEq] at hOther
  cases hStorage : v.storage with
  | _ =>
    rw [hStorage] at hOther
    cases hOther

/- The assembler reads a compiled program as it is. -/
theorem Facts.ready (hNamed : Script.WellNamed stmts) :
    Assembly.Ready compiled.program where
  fitting := by
    intro _ hI
    rcases facts.placed.of_mem hI with ⟨_, _, hPlaced⟩
    exact hPlaced.fitting
  targets := fun name hName => Assembly.isWord_of_isTarget (facts.supplies.targets name hName)
  operands := by
    intro _ hI name hOperand
    rcases facts.placed.of_mem hI with ⟨_, _, hPlaced⟩
    cases hPlaced.fitting with
    | unary => cases hOperand
    | branch hForm _ =>
      rcases facts.jump hI rfl hForm with ⟨_, hTarget, hSame⟩
      cases hOperand.symm.trans hSame
      exact mem_append_right _ (mem_append_left _ hTarget)
    | @general _ m _ _ _ hForm =>
      rcases facts.closed.operands _ hI m name rfl
        (by rw [hForm]; decide) hOperand with hData | hFrame
      · exact mem_append_left _ hData
      · exact mem_append_right _ (mem_append_right _ hFrame)
  entry := mem_append_right _ (mem_append_left _ facts.entry)
  data := fun d hD => facts.directives hD
  frames := by
    rw [parts.frames_eq]
    refine parts.emits.framed hNamed ?_
    have hSame := (steady_label isStem_landing parts.labelled).1.frames
    rw [hSame]
    intro _ hF
    cases hF

theorem Facts.image {layout : Listing.Layout} {known : Assembly.Symbols}
    {object : Assembly.Object}
    (hNamed : Script.WellNamed stmts)
    (hSource : layout.comments = true → '\n' ∉ options.source.toList)
    (h :
      Assembly.assemble .empty (compiled.program.listing layout) = (known, .ok object)) :
    Assembly.Image compiled.program known.value object.bytes := by
  refine Assembly.image_of_listing (facts.ready hNamed) ?_ h
  rw [congrArg Listing.Program.source parts.program]
  exact hSource

end Parts

end Compile

end Pep9
