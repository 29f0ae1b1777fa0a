import Mathlib.Data.List.TakeWhile
import Pep9.Assembly.Line
import Pep9.Proofs.Compile.Targets

/-
  How lines of assembly text are read. A line is an optional
  label and words that are set apart by a blank or a comma.

  Key theorems: `lines_join`, `fields_spaced`,
  `parse_unlabelled`, `parse_labelled`.
-/

namespace Pep9

open List
open Text (isBlank)

variable {backwards : List Char} {c : Char} {label : String}

namespace Assembly

/- A character that belongs to a word of a line. -/
structure IsPlain (c : Char) : Prop where
  blank : isBlank c = false
  comment : c ≠ ';'
  colon : c ≠ ':'
  comma : c ≠ ','

theorem isPlain_of_code
    (hLeast : 45 ≤ c.toNat)
    (hMost : c.toNat ≤ 122)
    (hColon : c ≠ ':')
    (hComment : c ≠ ';') :
    IsPlain c where
  blank := by
    have hAll : ∀ n : Fin 123, 45 ≤ n.val → Text.inRanges Text.blankRanges n.val = false := by
      decide
    exact hAll ⟨c.toNat, by omega⟩ hLeast
  comment := hComment
  colon := hColon
  comma := by
    rintro rfl
    exact absurd hLeast (by decide)

/- Identifiers are written in plain characters. -/
theorem isPlain_of_isWordChar (h : Script.Lexer.isWordChar c = true) :
    IsPlain c := by
  have hCode := Script.isWordChar_iff.mp h
  refine isPlain_of_code (by omega) (by omega) ?_ ?_
  · rintro rfl
    exact absurd h (by decide)
  · rintro rfl
    exact absurd h (by decide)

/- A text that can be a word of a line. -/
structure IsWord (s : String) : Prop where
  nonempty : s.toList ≠ []
  chars : ∀ c ∈ s.toList, IsPlain c

variable {s : String} {rest blanks : List Char}

theorem isWord_of_wordChars
    (hSome : s.toList ≠ [])
    (h : ∀ c ∈ s.toList, Script.Lexer.isWordChar c = true) :
    IsWord s where
  nonempty := hSome
  chars := fun c hC => isPlain_of_isWordChar (h c hC)

theorem isWord_of_isTarget (h : Compile.IsTarget s) : IsWord s :=
  isWord_of_wordChars h.nonempty h.chars

theorem last_of_isWord (h : IsWord s) :
    ∃ front c, s.toList = front ++ [c] ∧ isBlank c = false := by
  refine ⟨s.toList.dropLast, s.toList.getLast h.nonempty,
    (dropLast_concat_getLast h.nonempty).symm, ?_⟩
  exact (h.chars _ (getLast_mem h.nonempty)).blank

theorem linesFrom_append {line : List Char}
    (h : '\n' ∉ line) :
    Text.linesFrom backwards (line ++ '\n' :: rest) =
      String.ofList (backwards.reverse ++ line) :: Text.linesFrom [] rest := by
  induction line generalizing backwards with
  | nil => simp [Text.linesFrom]
  | cons _ _ ih =>
    rw [mem_cons, not_or] at h
    rw [cons_append, Text.linesFrom, if_neg (Ne.symm h.1), ih h.2]
    simp

/- A text that is made of lines has these lines. -/
theorem lines_join {raws : List String}
    (h : ∀ raw ∈ raws, '\n' ∉ raw.toList) :
    Text.lines (String.join (raws.map (· ++ "\n"))) = raws ++ [""] := by
  induction raws with
  | nil => rfl
  | cons raw rest ih =>
    have hRest := ih fun other hOther => h other (mem_cons_of_mem _ hOther)
    have hFirst := h raw mem_cons_self
    unfold Text.lines at hRest ⊢
    have hChars : (String.join ((raw :: rest).map (· ++ "\n"))).toList = raw.toList
            ++ '\n' :: (String.join (rest.map (· ++ "\n"))).toList := by
      simp [String.join_cons]
    rw [hChars, linesFrom_append hFirst, hRest]
    simp

/- The characters of a word are gathered. -/
theorem fieldsFrom_word {word : List Char}
    (h : ∀ c ∈ word, isBlank c = false) :
    Text.fieldsFrom backwards (word ++ rest) =
      Text.fieldsFrom (word.reverse ++ backwards) rest := by
  induction word generalizing backwards with
  | nil => rfl
  | cons c _ ih =>
    rw [cons_append, Text.fieldsFrom, if_neg (by simp [h c mem_cons_self]),
      ih fun d hD => h d (mem_cons_of_mem _ hD)]
    simp

theorem fieldsFrom_blanks (h : ∀ c ∈ blanks, isBlank c = true) :
    Text.fieldsFrom [] (blanks ++ rest) = Text.fieldsFrom [] rest := by
  induction blanks with
  | nil => rfl
  | cons c _ ih =>
    rw [cons_append, Text.fieldsFrom, if_pos (h c mem_cons_self),
      ih fun d hD => h d (mem_cons_of_mem _ hD)]
    rfl

theorem fieldOf_word (h : s.toList ≠ []) :
    Text.fieldOf (s.toList.reverse ++ []) = [s] := by
  unfold Text.fieldOf
  rw [append_nil, if_neg (by simpa using h), reverse_reverse, String.ofList_toList]

/- Words with a blank between each two. -/
def spaced : List String → List Char
  | [] => []
  | [w] => w.toList
  | w :: next :: rest => w.toList ++ ' ' :: spaced (next :: rest)

theorem fields_spaced {words : List String}
    (h : ∀ w ∈ words, IsWord w) :
    Text.fieldsFrom [] (spaced words) = words := by
  induction words with
  | nil => rfl
  | cons w rest ih =>
    have hWord := h w mem_cons_self
    have hBlank : ∀ c ∈ w.toList, isBlank c = false := fun c hC => (hWord.chars c hC).blank
    have hRest := ih fun other hOther => h other (mem_cons_of_mem _ hOther)
    cases rest with
    | nil =>
      have hPlain : Text.fieldsFrom [] (w.toList ++ []) =
            Text.fieldsFrom (w.toList.reverse ++ []) [] := fieldsFrom_word hBlank
      rw [append_nil w.toList] at hPlain
      rw [spaced, hPlain, Text.fieldsFrom, fieldOf_word hWord.nonempty]
    | cons =>
      rw [spaced, fieldsFrom_word hBlank, Text.fieldsFrom,
        if_pos (by decide), fieldOf_word hWord.nonempty, hRest]
      rfl

/-
  Characters that are read as some words: blanks and commas
  stand between the words only.
-/
structure IsBody (cs : List Char) (words : List String) : Prop where
  first : ∃ c rest, cs = c :: rest ∧ isBlank c = false
  last : ∃ front c, cs = front ++ [c] ∧ isBlank c = false
  chars : ∀ c ∈ cs, c ≠ ';' ∧ c ≠ ':' ∧ c ≠ '\n'
  spaced : (cs.map fun c => if c = ',' then ' ' else c) = spaced words
  words : ∀ w ∈ words, IsWord w

/- What is trimmed is what stands between blanks. -/
theorem trim_eq {cs : List Char}
    (hBlanks : ∀ c ∈ blanks, isBlank c = true)
    (hFirst : ∃ c rest, cs = c :: rest ∧ isBlank c = false)
    (hLast : ∃ front c, cs = front ++ [c] ∧ isBlank c = false) :
    Text.trim (String.ofList (blanks ++ cs)) = String.ofList cs := by
  rcases hFirst with ⟨_, _, hCons, hC⟩
  rcases hLast with ⟨_, _, hSnoc, hD⟩
  have hLeft : (blanks ++ cs).dropWhile isBlank = cs := by
    rw [dropWhile_append_of_pos hBlanks, hCons]
    simp [hC]
  have hRight : cs.reverse.dropWhile isBlank = cs.reverse := by
    rw [hSnoc]
    simp [hD]
  unfold Text.trim
  rw [String.toList_ofList, hLeft, hRight, reverse_reverse]

/- In front of the colon stands a label, which has to be a symbol. -/
theorem parse_of_uncommented {text : String} {kept : List Char}
    (hLabel : IsWord label)
    (h : Line.uncommented text = String.ofList (label.toList ++ ':' :: kept)) :
    Line.parse text =
      if isSymbol label then
        .ok ⟨some label, .parse (String.ofList kept)⟩
      else
        .error (.malformed label) := by
  rcases exists_cons_of_ne_nil hLabel.nonempty with ⟨c, front, hFront⟩
  have hPlain : isBlank c = false := (hLabel.chars c (hFront ▸ mem_cons_self)).blank
  have hName : ∀ e ∈ label.toList, decide (e ≠ ':') = true := by
    intro e hE
    simpa using (hLabel.chars e hE).colon
  have hTaken : (label.toList ++ ':' :: kept).takeWhile (· ≠ ':') = label.toList := by
    rw [takeWhile_append_of_pos hName]
    simp
  have hDropped : (label.toList ++ ':' :: kept).dropWhile (· ≠ ':') = ':' :: kept := by
    rw [dropWhile_append_of_pos hName]
    simp
  have hTrim : Text.trim label = label := by
    have hTrimmed := trim_eq (forall_mem_nil _) ⟨c, front, hFront, hPlain⟩ (last_of_isWord hLabel)
    rwa [nil_append, String.ofList_toList] at hTrimmed
  unfold Line.parse
  rw [h, String.toList_ofList]
  dsimp only
  rw [hDropped, hTaken, String.ofList_toList, hTrim]
  dsimp only
  rw [if_neg (by simpa using hLabel.nonempty)]

variable {cs : List Char} {name : String} {operands : List String}
  (hBlanks : ∀ c ∈ blanks, isBlank c = true)
include hBlanks

/- A line without a semicolon is all of it kept. -/
theorem uncommented_eq
    (hFirst : ∃ c rest, cs = c :: rest ∧ isBlank c = false)
    (hLast : ∃ front c, cs = front ++ [c] ∧ isBlank c = false)
    (hChars : ∀ c ∈ cs, c ≠ ';') :
    Line.uncommented (String.ofList (blanks ++ cs)) = String.ofList cs := by
  have hAll : ∀ c ∈ blanks ++ cs, decide (c ≠ ';') = true := by
    intro c hC
    rw [decide_eq_true_eq]
    rcases mem_append.mp hC with hC | hC
    · rintro rfl
      exact absurd (hBlanks _ hC) (by decide)
    · exact hChars c hC
  unfold Line.uncommented
  rw [String.toList_ofList, takeWhile_eq_self_iff.mpr hAll]
  exact trim_eq hBlanks hFirst hLast

/- The words of a body make a statement. -/
theorem statement_parse (hBody : IsBody cs (name :: operands)) :
    Statement.parse (String.ofList (blanks ++ cs)) =
      .ofWords (Text.upper name) operands := by
  have hKept : (blanks.map fun c => if c = ',' then ' ' else c) = blanks := by
    refine (map_congr_left fun c hC => ?_).trans (map_id' _)
    refine if_neg ?_
    rintro rfl
    exact absurd (hBlanks _ hC) (by decide)
  unfold Statement.parse Text.fields
  rw [String.toList_map, String.toList_ofList, map_append, hKept,
    hBody.spaced, fieldsFrom_blanks hBlanks, fields_spaced hBody.words]

/- A body behind blanks is a line of its own. -/
theorem parse_unlabelled (hBody : IsBody cs (name :: operands)) :
    Line.parse (String.ofList (blanks ++ cs)) =
      .ok ⟨none, .ofWords (Text.upper name) operands⟩ := by
  have hUncommented := uncommented_eq hBlanks hBody.first hBody.last
    fun c hC => (hBody.chars c hC).1
  have hColon : cs.dropWhile (· ≠ ':') = [] := by
    refine dropWhile_eq_nil_iff.mpr fun c hC => ?_
    simpa using (hBody.chars c hC).2.1
  have hStatement := statement_parse (forall_mem_nil _) hBody
  unfold Line.parse
  rw [hUncommented, String.toList_ofList]
  dsimp only
  rw [hColon]
  exact congrArg (fun s => Except.ok (Line.mk none s)) hStatement

/- A word and a colon before a body are its label. -/
theorem parse_labelled
    (hLabel : IsWord label)
    (hBody : IsBody cs (name :: operands)) :
    Line.parse (String.ofList (label.toList ++ ':' :: (blanks ++ cs))) =
      if isSymbol label then
        .ok ⟨some label, .ofWords (Text.upper name) operands⟩
      else
        .error (.malformed label) := by
  rcases exists_cons_of_ne_nil hLabel.nonempty with ⟨c, front, hFront⟩
  have hPlain : isBlank c = false := (hLabel.chars c (hFront ▸ mem_cons_self)).blank
  rcases hBody.last with ⟨init, d, hInit, hEnd⟩
  rw [← statement_parse hBlanks hBody]
  refine parse_of_uncommented hLabel (uncommented_eq (forall_mem_nil _)
    ⟨c, front ++ ':' :: (blanks ++ cs), by simp [hFront], hPlain⟩
    ⟨label.toList ++ ':' :: (blanks ++ init), d, by simp [hInit], hEnd⟩ ?_)
  intro e hE
  rcases mem_append.mp hE with hE | hE
  · exact (hLabel.chars e hE).comment
  · rcases mem_cons.mp hE with rfl | hE
    · decide
    · rcases mem_append.mp hE with hE | hE
      · rintro rfl
        exact absurd (hBlanks _ hE) (by decide)
      · exact (hBody.chars e hE).1

end Assembly

end Pep9
