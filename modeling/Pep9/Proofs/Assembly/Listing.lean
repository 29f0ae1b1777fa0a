import Mathlib.Data.List.Forall2
import Pep9.Proofs.Assembly.Numbers
import Pep9.Proofs.Compile.Closed
import Pep9.Proofs.Isa.Encoding

/-
  How the listing of a program is read back: each of its lines
  in one way only.

  Key theorems: `listing_eq`, `contents_eq`, `reads_program`.
-/

namespace Pep9

open List
open Compile (Fitting IsTarget names)
open Listing (Instruction Declaration Directive Frame Program Layout)

variable {cs : List Char} {directive : Directive} {f : Frame} {operands : List String}
  {w : String}

namespace Assembly

variable {name text : String} {i : Instruction} {d : Declaration} {layout : Layout} {p : Program}

/- What the assembler has to know of a program. -/
structure Ready (p : Program) : Prop where
  fitting : ∀ i ∈ p.code, Fitting i
  targets : ∀ name ∈ names p, IsWord name
  operands : ∀ i ∈ p.code, ∀ name, i.operand = .symbol name → name ∈ names p
  entry : p.entry ∈ names p
  data : ∀ d ∈ p.data, ∀ text, d.directive ≠ .other text
  frames : ∀ f ∈ p.frames, '\n' ∉ f.function.toList ∧ ∀ d ∈ f.decls, d.directive = .equate

/- A comment as a line, where comments are on. -/
def commentRaws (layout : Layout) (text : String) : List String :=
  if layout.comments then ["; " ++ text] else []

def raw (layout : Layout) (label text : String) : String :=
  if label = "" then
    "\t\t" ++ text
  else
    layout.labelColumn label ++ "\t" ++ text

def declarationRaws (layout : Layout) (decls : List Declaration) : List String :=
  decls.map fun d => raw layout d.name d.text

def raws (layout : Layout) (p : Program) : List String :=
  (if p.source = "" then []
    else commentRaws layout ("Translating " ++ p.source))
    ++ commentRaws layout "Branching to top level (tl) instructions"
    ++ [raw layout "" (Instruction.jump .br p.entry).text]
    ++ commentRaws layout "Allocating Global (static) memory" ++ declarationRaws layout p.data
    ++ p.frames.flatMap (fun f =>
        commentRaws layout ("Allocating stack frame for " ++ f.function)
          ++ declarationRaws layout f.decls)
    ++ commentRaws layout "Top Level instructions"
    ++ p.code.map (fun i => raw layout i.label i.text)
    ++ [raw layout "" ".END"]

/- Lines one behind the other. -/
def joined (lines : List String) : String := String.join (lines.map (· ++ "\n"))

theorem joined_append (first second : List String) :
    joined (first ++ second) = joined first ++ joined second := by
  simp [joined]

theorem joined_flatMap {α : Type}
    (f : α → List String)
    (xs : List α) :
    joined (xs.flatMap f) = String.join (xs.map fun x => joined (f x)) := by
  induction xs with
  | nil => rfl
  | cons _ _ ih => rw [flatMap_cons, joined_append, ih, map_cons, String.join_cons]

theorem comment_eq
    (layout : Layout)
    (text : String) :
    layout.comment text = joined (commentRaws layout text) := by
  unfold Layout.comment commentRaws
  split
  · simp [joined]
  · simp [joined]

theorem line_eq
    (layout : Layout)
    (label text : String) :
    layout.line label text = raw layout label text ++ "\n" := by
  unfold Layout.line raw
  split <;> rfl

theorem declarations_eq
    (layout : Layout)
    (decls : List Declaration) :
    layout.declarations decls = joined (declarationRaws layout decls) := by
  unfold Layout.declarations declarationRaws joined
  rw [map_map]
  refine congrArg String.join (map_congr_left fun d _ => ?_)
  exact line_eq layout d.name d.text

theorem listing_eq
    (layout : Layout)
    (p : Program) :
    p.listing layout = joined (raws layout p) := by
  have hSource : (if p.source = "" then ""
        else layout.comment ("Translating " ++ p.source)) = joined (if p.source = "" then []
          else commentRaws layout ("Translating " ++ p.source)) := by
    split
    · rfl
    · exact comment_eq layout _
  have hFrames : String.join (p.frames.map layout.frame) = joined (p.frames.flatMap fun f =>
          commentRaws layout ("Allocating stack frame for " ++ f.function)
            ++ declarationRaws layout f.decls) := by
    rw [joined_flatMap]
    refine congrArg String.join (map_congr_left fun f _ => ?_)
    unfold Layout.frame
    rw [joined_append, comment_eq, declarations_eq]
  have hCode : String.join (p.code.map fun i => layout.line i.label i.text) =
        joined (p.code.map fun i => raw layout i.label i.text) := by
    unfold joined
    rw [map_map]
    refine congrArg String.join (map_congr_left fun i _ => ?_)
    exact line_eq layout i.label i.text
  have hOne : ∀ s : String, joined [s] = s ++ "\n" := by
    intro _
    simp [joined]
  unfold Program.listing raws
  rw [hSource, hFrames, hCode]
  simp only [joined_append, hOne, comment_eq, declarations_eq, line_eq]

theorem IsPlain.ne_newline {c : Char} (h : IsPlain c) : c ≠ '\n' := by
  rintro rfl
  exact absurd h.blank (by decide)

theorem isBody_word (h : IsWord w) : IsBody w.toList [w] where
  first := by
    rcases exists_cons_of_ne_nil h.nonempty with ⟨c, rest, hCons⟩
    exact ⟨c, rest, hCons, (h.chars c (hCons ▸ mem_cons_self)).blank⟩
  last := last_of_isWord h
  chars := fun c hC => ⟨(h.chars c hC).comment, (h.chars c hC).colon, (h.chars c hC).ne_newline⟩
  spaced := by
    refine (map_congr_left fun c hC => ?_).trans (map_id' _)
    exact if_neg (h.chars c hC).comma
  words := by
    intro _ hV
    rw [mem_singleton.mp hV]
    exact h

/- A word in front of others, with a blank or a comma between. -/
theorem isBody_cons {v : String} {rest : List String} {separator : Char}
    (hWord : IsWord w)
    (hSeparator : separator = ' ' ∨ separator = ',')
    (hRest : IsBody cs (v :: rest)) :
    IsBody (w.toList ++ separator :: cs) (w :: v :: rest) where
  first := by
    rcases (isBody_word hWord).first with ⟨c, more, hCons, hBlank⟩
    exact ⟨c, more ++ separator :: cs, by rw [hCons]; rfl, hBlank⟩
  last := by
    rcases hRest.last with ⟨front, c, hSnoc, hBlank⟩
    exact ⟨w.toList ++ separator :: front, c, by simp [hSnoc], hBlank⟩
  chars := by
    intro c hC
    rcases mem_append.mp hC with hC | hC
    · exact (isBody_word hWord).chars c hC
    · rcases mem_cons.mp hC with rfl | hC
      · rcases hSeparator with rfl | rfl
        · decide
        · decide
      · exact hRest.chars c hC
  spaced := by
    have hHead : (if separator = ',' then ' ' else separator) = ' ' := by
      rcases hSeparator with rfl | rfl
      · rfl
      · rfl
    rw [map_append, (isBody_word hWord).spaced, map_cons, hHead, hRest.spaced]
    rfl
  words := by
    intro u hU
    rcases mem_cons.mp hU with rfl | hU
    · exact hWord
    · exact hRest.words u hU

theorem isWord_name (m : Isa.Mnemonic) : IsWord m.name :=
  isWord_of_wordChars m.name_chars.1 (all_eq_true.mp m.name_chars.2)

theorem isWord_mode {mode : Listing.Mode} {addressing : Isa.Addressing}
    (h : mode.addressing? = some addressing) :
    IsWord mode.text := by
  cases mode <;> cases h
  all_goals
    exact isWord_of_wordChars (by decide) (all_eq_true.mp (by decide))

theorem isWord_operand {operand : Listing.Operand}
    (hSome : operand ≠ .absent)
    (hSymbol : ∀ name, operand = .symbol name → IsWord name) :
    IsWord operand.text := by
  cases operand with
  | absent => exact absurd rfl hSome
  | number v => exact isWord_toString v
  | symbol name => exact hSymbol name rfl

theorem isWord_dotted {s : String} {rest : List Char}
    (h : s.toList = '.' :: rest)
    (hRest : rest.all Script.Lexer.isWordChar = true) :
    IsWord s := by
  refine ⟨by simp [h], ?_⟩
  intro c hC
  rw [h] at hC
  rcases mem_cons.mp hC with rfl | hC
  · exact isPlain_of_code (by decide) (by decide) (by decide) (by decide)
  · exact isPlain_of_isWordChar (all_eq_true.mp hRest c hC)

theorem isWord_directive (h : ∀ text, directive ≠ .other text) :
    IsWord directive.text := by
  cases directive with
  | equate | word | block => exact isWord_dotted rfl (by decide)
  | other text => exact absurd rfl (h text)

theorem isBody_instruction
    (h : Fitting i)
    (hSymbol : ∀ name, i.operand = .symbol name → IsWord name) :
    IsBody i.text.toList (i.op.text :: Compile.words i) := by
  cases h with
  | @unary _ m => exact isBody_word (isWord_name m)
  | @branch label m operand _ hOperand =>
    have hWord := isWord_operand hOperand hSymbol
    have hText : (Instruction.text ⟨label, .known m, operand, .none⟩).toList =
          m.name.toList ++ ' ' :: operand.text.toList := by
      have hSome : operand.text ≠ "" := by
        intro hEmpty
        rw [hEmpty] at hWord
        exact hWord.nonempty rfl
      simp [Instruction.text, hSome, Listing.Operation.text]
    rw [hText, Compile.words_branch hOperand]
    exact isBody_cons (isWord_name m) (.inl rfl) (isBody_word hWord)
  | @general label m operand mode _ _ hOperand hMode =>
    have hWord := isWord_operand hOperand hSymbol
    have hSome : operand.text ≠ "" := by
      intro hText
      rw [hText] at hWord
      exact hWord.nonempty rfl
    have hSuffix : mode ≠ .none := by
      rintro rfl
      cases hMode
    have hText : (Instruction.text ⟨label, .known m, operand, mode⟩).toList = m.name.toList
            ++ ' ' :: (operand.text.toList ++ ',' :: mode.text.toList) := by
      simp [Instruction.text, hSome, hSuffix, Listing.Operation.text]
    rw [hText, Compile.words_general hOperand hMode]
    exact isBody_cons (isWord_name m) (.inl rfl)
      (isBody_cons hWord (.inr rfl) (isBody_word (isWord_mode hMode)))

theorem isBody_declaration (h : ∀ text, d.directive ≠ .other text) :
    IsBody d.text.toList [d.directive.text, toString d.value] := by
  have hText : d.text.toList = d.directive.text.toList ++ ' ' :: (toString d.value).toList := by
    simp [Declaration.text]
  rw [hText]
  exact isBody_cons (isWord_directive h) (.inl rfl) (isBody_word (isWord_toString d.value))

------------------------------------------------------------
-- Reading Lines
------------------------------------------------------------

/- A label in a column that is too wide, with the mark of it. -/
def overwide (label : String) : String := "%!(BADWIDTH)" ++ label

/-
  A text of a layout is one line. It is read as a line unless
  that has a label which is no symbol, or is in a column that is
  too wide.
-/
structure Reads (layout : Layout) (text : String) (line : Line) : Prop where
  one : '\n' ∉ text.toList
  parse : Line.parse text =
      match line.label with
      | none => .ok line
      | some label =>
        if layout.width > Layout.widest then
          .error (.malformed (overwide label))
        else if isSymbol label then
          .ok line
        else
          .error (.malformed label)

/- So it can be read in one way only. -/
theorem Reads.only {line other : Line}
    (h : Reads layout text line)
    (hOther : Line.parse text = .ok other) :
    other = line ∧ ∀ label, line.label = some label →
      isSymbol label = true := by
  rw [h.parse] at hOther
  split at hOther
  · next hNone =>
    cases hOther
    refine ⟨rfl, fun label hLabel => ?_⟩
    cases hNone.symm.trans hLabel
  · next label hSome =>
    split at hOther
    · cases hOther
    · split at hOther
      · next hSymbol =>
        cases hOther
        refine ⟨rfl, fun other hLabel => ?_⟩
        cases hSome.symm.trans hLabel
        exact hSymbol
      · cases hOther

theorem IsBody.ne_newline {ws : List String} (h : IsBody cs ws) : '\n' ∉ cs :=
  fun hMem => (h.chars _ hMem).2.2 rfl

theorem reads_comment
    (layout : Layout)
    (h : '\n' ∉ text.toList) :
    Reads layout ("; " ++ text) ⟨none, .empty⟩ where
  one := by
    rw [String.toList_append, mem_append, not_or]
    exact ⟨by decide, h⟩
  parse := by
    have hNothing : Line.uncommented ("; " ++ text) = "" := by
      unfold Line.uncommented
      rw [String.toList_append]
      rfl
    have hEmpty : Statement.parse (String.ofList "".toList) = .empty := by
      decide +kernel
    unfold Line.parse
    rw [hNothing]
    exact congrArg (fun s => Except.ok (Line.mk none s)) hEmpty

theorem reads_unlabelled (h : IsBody text.toList (name :: operands)) :
    Reads layout (raw layout "" text) ⟨none, .ofWords (Text.upper name) operands⟩ := by
  have hRaw : raw layout "" text = String.ofList (['\t', '\t'] ++ text.toList) := by
    unfold raw
    rw [if_pos rfl]
    refine String.toList_inj.mp ?_
    simp
  have hBlanks : ∀ c ∈ ['\t', '\t'], Text.isBlank c = true := all_eq_true.mp (by decide)
  rw [hRaw]
  refine ⟨?_, parse_unlabelled hBlanks h⟩
  rw [String.toList_ofList, mem_append, not_or]
  exact ⟨by decide, h.ne_newline⟩

/- The blanks behind the colon of a label. -/
def gap (layout : Layout) (label : String) : List Char :=
  replicate (layout.width - (label ++ ":").length) ' ' ++ ['\t']

/- A labelled line is read as its label and its words. -/
theorem reads_labelled {label : String}
    (hLabel : IsWord label)
    (h : IsBody text.toList (name :: operands)) :
    Reads layout (raw layout label text) ⟨some label, .ofWords (Text.upper name) operands⟩ := by
  have hSome : label ≠ "" := by
    rintro rfl
    exact hLabel.nonempty rfl
  unfold raw Layout.labelColumn
  rw [if_neg hSome]
  by_cases hWide : layout.width > Layout.widest
  · -- A label column that is too wide is marked, and refused.
    have hMark : IsWord (overwide label) := by
      refine ⟨by simp [overwide], ?_⟩
      intro c hC
      rw [overwide, String.toList_append, mem_append] at hC
      rcases hC with hC | hC
      · have hAll : "%!(BADWIDTH)".toList.all (fun c =>
            !Text.isBlank c && c != ';' && c != ':' && c != ',') =
              true := by
          decide
        have hOne := all_eq_true.mp hAll c hC
        simp only [Bool.and_eq_true, Bool.not_eq_true', bne_iff_ne] at hOne
        exact ⟨hOne.1.1.1, hOne.1.1.2, hOne.1.2, hOne.2⟩
      · exact hLabel.chars c hC
    have hRaw : "%!(BADWIDTH)" ++ label ++ ":" ++ "\t" ++ text =
          String.ofList ((overwide label).toList ++ ':' :: (['\t'] ++ text.toList)) := by
      refine String.toList_inj.mp ?_
      simp [overwide]
    rw [if_pos hWide, hRaw]
    refine ⟨?_, ?_⟩
    · rw [String.toList_ofList, mem_append, not_or]
      refine ⟨fun hC => (hMark.chars _ hC).ne_newline rfl, ?_⟩
      rw [mem_cons, not_or, mem_append, not_or]
      exact ⟨by decide, by decide, h.ne_newline⟩
    · have hBlanks : ∀ c ∈ ['\t'], Text.isBlank c = true := all_eq_true.mp (by decide)
      have hNone : isSymbol (overwide label) = false := by
        unfold isSymbol
        rw [overwide, String.toList_append]
        rfl
      rw [parse_labelled hBlanks hMark h, hNone]
      dsimp only
      rw [if_pos hWide]
      rfl
  · have hRaw : Text.padRight layout.width (label ++ ":") ++ "\t" ++ text =
          String.ofList (label.toList ++ ':' :: (gap layout label ++ text.toList)) := by
      refine String.toList_inj.mp ?_
      simp [Text.padRight, Text.spaces, gap]
    have hBlanks : ∀ c ∈ gap layout label, Text.isBlank c = true := by
      intro _ hC
      unfold gap at hC
      rcases mem_append.mp hC with hC | hC
      · rw [eq_of_mem_replicate hC]
        decide
      · rw [mem_singleton.mp hC]
        decide
    have hGap : '\n' ∉ gap layout label := by
      unfold gap
      rw [mem_append, not_or]
      refine ⟨fun hC => ?_, by decide⟩
      exact absurd (eq_of_mem_replicate hC) (by decide)
    rw [if_neg hWide, hRaw]
    refine ⟨?_, ?_⟩
    · rw [String.toList_ofList, mem_append, not_or]
      refine ⟨fun hC => (hLabel.chars _ hC).ne_newline rfl, ?_⟩
      rw [mem_cons, not_or, mem_append, not_or]
      exact ⟨by decide, hGap, h.ne_newline⟩
    · dsimp only
      rw [parse_labelled hBlanks hLabel h, if_neg hWide]

theorem reads_nothing (layout : Layout) : Reads layout "" ⟨none, .empty⟩ where
  one := by decide
  parse := by
    have hEmpty : Line.parse "" = .ok ⟨none, .empty⟩ := by decide +kernel
    exact hEmpty

theorem ne_newline_of_reads {texts : List String} {lines : List Line}
    (h : List.Forall₂ (Reads layout) texts lines) :
    ∀ text ∈ texts, '\n' ∉ text.toList := by
  intro _ hText
  rcases forall₂_iff_get.mp h with ⟨hLength, hEach⟩
  rcases mem_iff_get.mp hText with ⟨k, rfl⟩
  exact (hEach k.val k.isLt (hLength ▸ k.isLt)).one

/- What is read from lines that can be read in one way only. -/
theorem contents_eq {texts : List String} {lines contents : List Line}
    (h : List.Forall₂ (Reads layout) texts lines)
    (hContents : texts.map Line.parse = contents.map .ok) :
    contents = lines ∧
      ∀ line ∈ lines, ∀ label, line.label = some label → isSymbol label = true := by
  induction h generalizing contents with
  | nil =>
    cases contents with
    | nil => exact ⟨rfl, nofun⟩
    | cons => cases hContents
  | @cons _ _ _ _ hFirst _ ih =>
    cases contents with
    | nil => cases hContents
    | cons =>
      rw [map_cons, map_cons] at hContents
      rcases List.cons.inj hContents with ⟨hParse, hOthers⟩
      rcases hFirst.only hParse with ⟨rfl, hLabel⟩
      rcases ih hOthers with ⟨rfl, hLabels⟩
      refine ⟨rfl, fun other hOther => ?_⟩
      rcases mem_cons.mp hOther with rfl | hOther
      · exact hLabel
      · exact hLabels other hOther

/- The line of a comment, where comments are on. -/
def commentLines (layout : Layout) : List Line :=
  if layout.comments then [⟨none, .empty⟩] else []

def declarationLine (d : Declaration) : Line :=
  ⟨some d.name, .ofWords d.directive.text [toString d.value]⟩

def instructionLine (i : Instruction) : Line :=
  ⟨if i.label = "" then none else some i.label, .ofWords i.op.text (Compile.words i)⟩

/- The lines of a listing before its end. -/
def bodyLines (layout : Layout) (p : Program) : List Line :=
  (if p.source = "" then [] else commentLines layout) ++ commentLines layout
    ++ [instructionLine (.jump .br p.entry)] ++ commentLines layout ++ p.data.map declarationLine
    ++ p.frames.flatMap (fun f =>
        commentLines layout ++ f.decls.map declarationLine)
    ++ commentLines layout
    ++ p.code.map instructionLine

theorem upper_directive (h : ∀ text, directive ≠ .other text) :
    Text.upper directive.text = directive.text := by
  cases directive with
  | equate | word | block => exact Isa.upper_eq_self (by decide)
  | other text => exact absurd rfl (h text)

theorem reads_instruction
    (layout : Layout)
    (h : Fitting i)
    (hLabel : i.label ≠ "" → IsWord i.label)
    (hSymbol : ∀ name, i.operand = .symbol name → IsWord name) :
    Reads layout (raw layout i.label i.text) (instructionLine i) := by
  have hBody := isBody_instruction h hSymbol
  have hUpper : Text.upper i.op.text = i.op.text := by
    cases h with
    | @unary _ m | @branch _ m | @general _ m => exact m.upper_name
  unfold instructionLine
  by_cases hSome : i.label = ""
  · have hReads : Reads layout (raw layout "" i.text) _ := reads_unlabelled hBody
    rw [hUpper] at hReads
    rw [hSome, if_pos rfl]
    exact hReads
  · have hReads : Reads layout (raw layout i.label i.text) _ := reads_labelled (hLabel hSome) hBody
    rw [hUpper] at hReads
    rw [if_neg hSome]
    exact hReads

theorem reads_declarations
    (layout : Layout)
    {decls : List Declaration}
    (hName : ∀ d ∈ decls, IsWord d.name)
    (hDirective : ∀ d ∈ decls, ∀ text, d.directive ≠ .other text) :
    List.Forall₂ (Reads layout) (declarationRaws layout decls) (decls.map declarationLine) := by
  unfold declarationRaws
  rw [forall₂_map_left_iff, forall₂_map_right_iff]
  refine forall₂_same.mpr fun d hD => ?_
  have hReads : Reads layout (raw layout d.name d.text) _ :=
    reads_labelled (hName d hD) (isBody_declaration (hDirective d hD))
  rw [upper_directive (hDirective d hD)] at hReads
  exact hReads

theorem reads_comments
    (layout : Layout)
    (h : layout.comments = true → '\n' ∉ text.toList) :
    List.Forall₂ (Reads layout) (commentRaws layout text) (commentLines layout) := by
  unfold commentRaws commentLines
  split
  · next hOn => exact .cons (reads_comment layout (h hOn)) .nil
  · exact .nil

theorem Ready.label
    (h : Ready p)
    (hI : i ∈ p.code)
    (hSome : i.label ≠ "") :
    IsWord i.label := by
  refine h.targets _ (mem_append_right _ (mem_append_left _ ?_))
  exact Compile.mem_labels.mpr ⟨hSome, i, hI, rfl⟩

theorem Ready.datum (h : Ready p) (hD : d ∈ p.data) : IsWord d.name :=
  h.targets _ (mem_append_left _ (mem_map_of_mem hD))

theorem Ready.slot
    (h : Ready p)
    (hF : f ∈ p.frames)
    (hD : d ∈ f.decls) :
    IsWord d.name := by
  refine h.targets _ (mem_append_right _ (mem_append_right _ ?_))
  exact mem_flatMap.mpr ⟨f, hF, mem_map_of_mem hD⟩

theorem reads_finish (layout : Layout) :
    Reads layout (raw layout "" ".END") ⟨none, .finish⟩ := by
  have hReads : Reads layout (raw layout "" ".END") _ :=
    reads_unlabelled (isBody_word (isWord_dotted rfl (by decide)))
  rw [Isa.upper_eq_self (by decide)] at hReads
  exact hReads

theorem reads_frame
    (layout : Layout)
    (h : Ready p)
    (hF : f ∈ p.frames) :
    List.Forall₂ (Reads layout) (commentRaws layout ("Allocating stack frame for " ++ f.function)
        ++ declarationRaws layout f.decls)
      (commentLines layout ++ f.decls.map declarationLine) := by
  rcases h.frames f hF with ⟨hName, hEquates⟩
  refine rel_append (reads_comments layout fun _ => ?_)
    (reads_declarations layout (fun d hD => h.slot hF hD) ?_)
  · rw [String.toList_append, mem_append, not_or]
    exact ⟨by decide, hName⟩
  · intro d hD _ hOther
    rw [hEquates d hD] at hOther
    cases hOther

theorem reads_frames {frames : List Frame} {texts : Frame → List String}
    {lines : Frame → List Line}
    (h : ∀ f ∈ frames, List.Forall₂ (Reads layout) (texts f) (lines f)) :
    List.Forall₂ (Reads layout) (frames.flatMap texts) (frames.flatMap lines) := by
  induction frames with
  | nil => exact .nil
  | cons f _ ih =>
    rw [flatMap_cons, flatMap_cons]
    exact rel_append (h f mem_cons_self)
      (ih fun other hOther => h other (mem_cons_of_mem _ hOther))

/- A listing is read line by line as the program. -/
theorem reads_program
    (layout : Layout)
    (h : Ready p)
    (hSource : layout.comments = true → '\n' ∉ p.source.toList) :
    List.Forall₂ (Reads layout) (raws layout p) (bodyLines layout p ++ [⟨none, .finish⟩]) := by
  have hBranch : Reads layout (raw layout "" (Instruction.jump .br p.entry).text)
        (instructionLine (.jump .br p.entry)) := by
    have hFitting : Fitting (.jump .br p.entry) := .branch rfl nofun
    refine reads_instruction layout hFitting (absurd rfl) ?_
    intro _ hName
    cases hName
    exact h.targets _ h.entry
  have hData := reads_declarations layout (fun d hD => h.datum hD) h.data
  have hFrames := reads_frames fun f hF => reads_frame layout h hF
  have hCode : List.Forall₂ (Reads layout) (p.code.map fun i => raw layout i.label i.text)
        (p.code.map instructionLine) := by
    rw [forall₂_map_left_iff, forall₂_map_right_iff]
    refine forall₂_same.mpr fun i hI => ?_
    exact reads_instruction layout (h.fitting i hI) (h.label hI)
      fun name hName => h.targets name (h.operands i hI name hName)
  have hTranslating : List.Forall₂ (Reads layout) (if p.source = "" then []
          else commentRaws layout ("Translating " ++ p.source))
        (if p.source = "" then [] else commentLines layout) := by
    split
    · exact .nil
    · refine reads_comments layout fun hOn => ?_
      rw [String.toList_append, mem_append, not_or]
      exact ⟨by decide, hSource hOn⟩
  have hComment : ∀ {text : String}, '\n' ∉ text.toList →
      List.Forall₂ (Reads layout) (commentRaws layout text) (commentLines layout) :=
    fun hText => reads_comments layout fun _ => hText
  unfold raws bodyLines
  exact rel_append (rel_append (rel_append
    (rel_append (rel_append (rel_append (rel_append
    (rel_append hTranslating (hComment (by decide)))
    (.cons hBranch .nil)) (hComment (by decide))) hData) hFrames)
    (hComment (by decide))) hCode) (.cons (reads_finish layout) .nil)

end Assembly

end Pep9
