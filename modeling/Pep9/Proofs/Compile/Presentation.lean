import Pep9.Proofs.Compile.Assembled

/-
  The presentation of a program. The assembler sees the lines
  of a text that are not blank, and of a compiled program these
  do not depend on its name, its comments or the width of its
  columns.

  Key theorems: `assemble_readings`, `readings_listing`,
  `assemble_presentation`.
-/

namespace Pep9

open Text (lines linesFrom)
open List Result
open Listing (Program Layout)

variable {name text : String} {bytes : Int64} {lines' : List NumberedLine} {p : Program}

namespace Assembly

/- Whether a line is read as one without label and statement. -/
def isBlankReading : Except LabelFault Line → Bool
  | .ok line => line.isEmpty
  | .error _ => false

/- What is read from the lines of a text that are not blank. -/
def readings (text : String) : List (Except LabelFault Line) :=
  ((lines text).map Line.parse).filter fun r => !isBlankReading r

/- The numbered lines that are not blank. -/
def nonblank (lines : List NumberedLine) : List NumberedLine :=
  lines.filter fun line => !isBlankReading line.content

theorem map_content_nonblank (text : String) :
    (nonblank (numberedLines text)).map NumberedLine.content = readings text := by
  unfold nonblank readings
  rw [← numberedLines_contents, filter_map]
  rfl

/- Blank lines do not count in the first pass. -/
theorem firstPass_nonblank
    (plan : Plan)
    (lines : List NumberedLine) :
    firstPass plan (nonblank lines) = firstPass plan lines := by
  unfold nonblank
  induction lines generalizing plan with
  | nil => rfl
  | cons _ _ ih =>
    rw [filter_cons]
    split
    · rw [firstPass, firstPass]
      split
      · rfl
      · split
        · exact ih _
        · rfl
    · next hBlank =>
      rw [firstPass]
      unfold isBlankReading at hBlank
      split at hBlank
      · next content hContent =>
        have hEmpty : content.isEmpty = true := by simpa using hBlank
        rw [hContent]
        dsimp only
        unfold Plan.takeLine
        rw [if_pos hEmpty]
        exact ih plan
      · cases hBlank rfl

theorem secondPass_nonblank
    (symbols : Symbols)
    (lines : List NumberedLine) :
    secondPass symbols (nonblank lines) = secondPass symbols lines := by
  unfold nonblank
  induction lines with
  | nil => rfl
  | cons _ _ ih =>
    rw [filter_cons]
    split
    · rw [secondPass, secondPass, ih]
    · next hBlank =>
      rw [secondPass]
      unfold isBlankReading at hBlank
      split at hBlank
      · next content hContent =>
        have hEmpty : content.statement = .empty := by
          simp [Line.isEmpty] at hBlank
          exact hBlank.2
        rw [hContent]
        dsimp only
        rw [hEmpty, if_neg (by decide)]
        exact ih
      · cases hBlank rfl

/- What is wrong with a text, whatever line it is on. -/
def Error.cause? : Error → Option Cause
  | missingEnd => none
  | atLine _ cause => some cause

/-
  What assembling a text gives: the symbols, and the bytes of
  the object code or the cause of the failure.
-/
def outcome (result : Symbols × Except Error Object) :
    Symbols × Except (Option Cause) (List UInt8) :=
  (result.1, (result.2.map Object.bytes).mapError Error.cause?)

theorem firstPass_numbers
    (plan : Plan)
    {lines : List NumberedLine}
    (h :
      lines.map NumberedLine.content = lines'.map NumberedLine.content) :
    (firstPass plan lines).1 = (firstPass plan lines').1 ∧
      (firstPass plan lines).2.map Error.cause? = (firstPass plan lines').2.map Error.cause? := by
  induction lines generalizing plan lines' with
  | nil =>
    cases map_eq_nil_iff.mp h.symm
    exact ⟨rfl, rfl⟩
  | cons _ _ ih =>
    rcases map_eq_cons_iff.mp h.symm with ⟨_, _, rfl, hLine, hRest⟩
    rw [firstPass, firstPass, hLine]
    split
    · exact ⟨rfl, rfl⟩
    · split
      · exact ih _ hRest.symm
      · exact ⟨rfl, rfl⟩

/- What a second pass gives, with the bytes of each line. -/
def pieces (result : Except Error (List Chunk)) : Except (Option Cause) (List (List UInt8)) :=
  (result.map (·.map Chunk.bytes)).mapError Error.cause?

theorem pieces_cons
    (chunk : Chunk)
    (result : Except Error (List Chunk)) :
    pieces (do return chunk :: (← result)) = (pieces result).map (chunk.bytes :: ·) := by
  cases result <;> rfl

theorem outcome_assemble
    (symbols : Symbols)
    (text : String) :
    outcome (assemble symbols text) =
      match firstPass (.start symbols) (numberedLines text) with
      | (known, some error) => (known, .error error.cause?)
      | (known, none) =>
        (known, (pieces (secondPass known (numberedLines text))).map List.flatten) := by
  unfold assemble
  dsimp only
  rcases firstPass (.start symbols) (numberedLines text) with ⟨known, _ | _⟩
  · dsimp only
    cases secondPass known (numberedLines text) <;> rfl
  · rfl

theorem secondPass_numbers
    (symbols : Symbols)
    {lines : List NumberedLine}
    (h :
      lines.map NumberedLine.content = lines'.map NumberedLine.content) :
    pieces (secondPass symbols lines) = pieces (secondPass symbols lines') := by
  induction lines generalizing lines' with
  | nil =>
    cases map_eq_nil_iff.mp h.symm
    rfl
  | cons _ _ ih =>
    rcases map_eq_cons_iff.mp h.symm with ⟨_, _, rfl, hLine, hRest⟩
    rw [secondPass, secondPass, hLine]
    split
    · rfl
    · split
      · rfl
      · split
        · rfl
        · exact ih hRest.symm
        · rw [pieces_cons, pieces_cons, ih hRest.symm]

/- The assembler sees the lines that are not blank, and no numbers. -/
theorem assemble_readings {text' : String}
    (symbols : Symbols)
    (h : readings text = readings text') :
    outcome (assemble symbols text) = outcome (assemble symbols text') := by
  rw [← map_content_nonblank, ← map_content_nonblank] at h
  have hFirst := firstPass_numbers (.start symbols) h
  rw [firstPass_nonblank, firstPass_nonblank] at hFirst
  rw [outcome_assemble, outcome_assemble]
  generalize firstPass (.start symbols) (numberedLines text) = result at hFirst
  generalize firstPass (.start symbols) (numberedLines text') = result' at hFirst
  rcases result with ⟨known, error?⟩
  rcases result' with ⟨_, _⟩
  rcases hFirst with ⟨rfl, hError⟩
  cases error? with
  | none =>
    cases Option.map_eq_none_iff.mp hError.symm
    have hSecond := secondPass_numbers known h
    rw [secondPass_nonblank, secondPass_nonblank] at hSecond
    dsimp only
    rw [hSecond]
  | some =>
    rcases Option.map_eq_some_iff.mp hError.symm with ⟨_, rfl, hCause⟩
    dsimp only
    rw [hCause]

/- How a line of a listing is read back, in a wide column or not. -/
def readBack (isWide : Bool) (line : Line) : Except LabelFault Line :=
  match line.label with
  | none => .ok line
  | some label =>
    if isWide then
      .error (.malformed (overwide label))
    else if isSymbol label then
      .ok line
    else
      .error (.malformed label)

/- Whether the label column of a layout is too wide. -/
def isWide (layout : Layout) : Bool := layout.width > Layout.widest

theorem isBlankReading_readBack
    (wide : Bool)
    (line : Line) :
    isBlankReading (readBack wide line) = line.isEmpty := by
  rcases line with ⟨label, _⟩
  cases label with
  | none => rfl
  | some =>
    unfold readBack
    dsimp only
    split
    · rfl
    · split <;> rfl

variable {layout : Layout}

theorem Reads.parse_eq {line : Line}
    (h : Reads layout text line) :
    Line.parse text = readBack (isWide layout) line := by
  rw [h.parse]
  unfold readBack isWide
  cases line.label with
  | none => rfl
  | some => simp only [decide_eq_true_eq]

theorem map_parse_of_reads {texts : List String} {lines : List Line}
    (h : List.Forall₂ (Reads layout) texts lines) :
    texts.map Line.parse = lines.map (readBack (isWide layout)) := by
  induction h with
  | nil => rfl
  | cons hFirst _ ih => rw [map_cons, map_cons, ih, hFirst.parse_eq]

/- The readings of a listing without a name. -/
theorem readings_unnamed
    (layout : Layout)
    (h : Ready p)
    (hSource : p.source = "") :
    readings (p.listing layout) = (coreLines p).map (readBack (isWide layout)) := by
  have hNone : '\n' ∉ p.source.toList := by
    rw [hSource]
    exact not_mem_nil
  have hReads := reads_program layout h fun _ => hNone
  have hAll := rel_append hReads (.cons (reads_nothing layout) .nil)
  have hOne := ne_newline_of_reads hReads
  unfold readings
  rw [listing_eq, joined, lines_join hOne, map_parse_of_reads hAll,
    ← filter_body layout h, filter_map]
  simp only [Function.comp_def, isBlankReading_readBack]

------------------------------------------------------------
-- Names
------------------------------------------------------------

theorem linesFrom_break (backwards before behind : List Char) :
    linesFrom backwards (before ++ '\n' :: behind) =
      linesFrom backwards before ++ linesFrom [] behind := by
  induction before generalizing backwards with
  | nil => simp [linesFrom]
  | cons _ _ ih =>
    rw [cons_append, linesFrom, linesFrom, ih, ih]
    split <;> rfl

theorem lines_break (before behind : String) :
    lines (before ++ "\n" ++ behind) = lines before ++ lines behind := by
  unfold lines
  rw [← linesFrom_break]
  simp

/- What stands before a text is part of its first line. -/
theorem linesFrom_eq (backwards text : List Char) :
    ∃ first, '\n' ∉ first ∧
      linesFrom backwards text = String.ofList (backwards.reverse ++ first)
          :: (linesFrom [] text).tail := by
  induction text generalizing backwards with
  | nil => exact ⟨[], not_mem_nil, by simp [linesFrom]⟩
  | cons c _ ih =>
    by_cases hLine : c = '\n'
    · refine ⟨[], not_mem_nil, ?_⟩
      simp [linesFrom, hLine]
    · rcases ih (c :: backwards) with ⟨first, hFirst, hRest⟩
      rcases ih [c] with ⟨_, _, hOther⟩
      refine ⟨c :: first, ?_, ?_⟩
      · rw [mem_cons, not_or]
        exact ⟨Ne.symm hLine, hFirst⟩
      · rw [linesFrom, linesFrom, if_neg hLine, if_neg hLine, hRest, hOther]
        simp

/- A comment, whose text may go on over further lines. -/
theorem lines_comment (text : String) :
    ∃ first, Line.parse first = .ok ⟨none, .empty⟩ ∧
      lines ("; Translating " ++ text) = first :: (lines text).tail := by
  rcases linesFrom_eq "; Translating ".toList.reverse text.toList with ⟨first, hFirst, hLines⟩
  refine ⟨"; " ++ ("Translating " ++ String.ofList first), ?_, ?_⟩
  · have hOne : '\n' ∉ ("Translating " ++ String.ofList first).toList := by
      rw [String.toList_append, mem_append, not_or, String.toList_ofList (l := first)]
      exact ⟨by decide, hFirst⟩
    exact (reads_comment .standard hOne).parse
  · have hBehind : linesFrom "; Translating ".toList.reverse text.toList =
          lines ("; Translating " ++ text) := by
      unfold lines
      rw [String.toList_append]
      rfl
    rw [← hBehind, hLines, reverse_reverse]
    refine congrArg (· :: _) (String.toList_inj.mp ?_)
    simp

theorem readings_break (before behind : String) :
    readings (before ++ "\n" ++ behind) =
      readings before ++ readings behind := by
  unfold readings
  rw [lines_break, map_append, filter_append]

/-
  A name that the assembler does not see: where it goes on over
  further lines, these are blank.
-/
def Silent (layout : Layout) (name : String) : Prop :=
  layout.comments = true → ∀ line ∈ (lines name).tail, Line.parse line = .ok ⟨none, .empty⟩

instance (layout : Layout) (name : String) : Decidable (Silent layout name) := by
  unfold Silent
  infer_instance

/- The line of a name, where it has one. -/
theorem readings_name
    (rest : String)
    (h : Silent layout name) :
    readings (layout.comment ("Translating " ++ name) ++ rest) = readings rest := by
  unfold Layout.comment
  split
  · next hOn =>
    rcases lines_comment name with ⟨_, hFirst, hLines⟩
    have hNone : readings ("; Translating " ++ name) = [] := by
      unfold readings
      rw [hLines]
      refine filter_eq_nil_iff.mpr fun r hR => ?_
      rcases mem_map.mp hR with ⟨line, hLine, rfl⟩
      have hBlank : Line.parse line = .ok ⟨none, .empty⟩ := by
        rcases mem_cons.mp hLine with rfl | hTail
        · exact hFirst
        · exact h hOn line hTail
      rw [hBlank]
      decide
    have hText : "; " ++ ("Translating " ++ name) = "; Translating " ++ name := by
      rw [← String.append_assoc]
      rfl
    rw [hText, readings_break, hNone, nil_append]
  · rw [String.empty_append]

/- The readings of a listing do not depend on how it is presented. -/
theorem readings_listing
    (h : Ready p)
    (hSilent : Silent layout p.source) :
    readings (p.listing layout) =
      (coreLines p).map (readBack (isWide layout)) := by
  have hUnnamed : Ready { p with source := "" } := ⟨h.fitting, h.targets,
    h.operands, h.entry, h.data, h.frames⟩
  have hRest := readings_unnamed layout hUnnamed rfl
  by_cases hNone : p.source = ""
  · exact readings_unnamed layout h hNone
  · have hListing : p.listing layout = layout.comment ("Translating " ++ p.source)
            ++ Program.listing { p with source := "" } layout := by
      unfold Program.listing
      rw [if_neg hNone, if_pos rfl]
      simp only [String.append_assoc, String.empty_append]
    rw [hListing, readings_name _ hSilent, hRest]
    rfl

end Assembly

namespace Compile

open Assembly (assemble outcome Silent)

variable {compiled : Compiled}

theorem generate_renamed {stmts : List Script.Stmt}
    (name' : String)
    (h : generate ⟨bytes, name⟩ .empty stmts = .ok compiled) :
    generate ⟨bytes, name'⟩ .empty stmts =
      .ok ⟨{ compiled.program with source := name' }, compiled.table⟩ := by
  unfold generate at h ⊢
  rcases seq h with ⟨globals, hGlobals, hRest⟩
  rcases seq hRest with ⟨data, hData, hFrom⟩
  refine bind_eq_ok.mpr ⟨globals, hGlobals, ?_⟩
  refine bind_eq_ok.mpr ⟨data, hData, ?_⟩
  unfold generateFrom at hFrom ⊢
  rcases seq hFrom with ⟨⟨entry, g₁⟩, hEntry, hCode⟩
  rcases seq hCode with ⟨⟨code, g₂⟩, hBlock, hDone⟩
  cases hDone
  refine bind_eq_ok.mpr ⟨⟨entry, g₁⟩, hEntry, ?_⟩
  exact bind_eq_ok.mpr ⟨⟨code, g₂⟩, hBlock, rfl⟩

/- The name of a script is only noted in its program. -/
theorem compile_renamed
    (name' : String)
    (h : compile ⟨bytes, name⟩ text = .ok compiled) :
    compile ⟨bytes, name'⟩ text =
      .ok ⟨{ compiled.program with source := name' }, compiled.table⟩ := by
  rcases compile_generate h with ⟨_, hParsed, hGenerated⟩
  unfold compile
  rw [hParsed]
  dsimp only
  rw [generate_renamed name' hGenerated]
  rfl

theorem compile_ready {options : Options}
    (h : compile options text = .ok compiled) :
    Assembly.Ready compiled.program := by
  rcases compile_generate h with ⟨_, hParsed, hGenerated⟩
  rcases generate_allocated hGenerated with ⟨parts, _⟩
  have hNamed := Script.parseSource_wellNamed hParsed
  exact (facts_of_parts parts hNamed).ready hNamed

/-
  A script is assembled to the same object code and the same
  symbols, or is refused for the same cause, whatever its name,
  with comments or without, and in columns of any width, as long
  as the names are silent and the columns on the same side of
  the widest one.
-/
theorem assemble_presentation {bytes : Int64} {name name' text : String}
    {layout layout' : Listing.Layout} {compiled : Compiled}
    (h : compile ⟨bytes, name⟩ text = .ok compiled)
    (hName : Silent layout name)
    (hName' : Silent layout' name')
    (hWidth : layout.width ≤ Listing.Layout.widest ↔
        layout'.width ≤ Listing.Layout.widest) :
    ∃ renamed, compile ⟨bytes, name'⟩ text = .ok renamed ∧
      ∀ symbols,
        outcome (assemble symbols (compiled.program.listing layout)) =
          outcome (assemble symbols (renamed.program.listing layout')) := by
  have hRenamed := compile_renamed name' h
  have hSource : name = compiled.program.source :=
    congrArg (fun c => c.program.source) (Except.ok.inj ((compile_renamed name h).symm.trans h))
  refine ⟨_, hRenamed, fun symbols => ?_⟩
  refine Assembly.assemble_readings symbols ?_
  have hWide : Assembly.isWide layout = Assembly.isWide layout' := by
    unfold Assembly.isWide
    simp only [gt_iff_lt, ← Nat.not_le, hWidth]
  rw [Assembly.readings_listing (compile_ready h) (hSource ▸ hName),
    Assembly.readings_listing (compile_ready hRenamed) hName', hWide]
  rfl

/- A script with a label of each kind. -/
def looped : String :=
  "n = 3\ndef f(a):\n    return a - 1\nwhile n > 0:\n    n = f(n)\n"

/- A name with a comment on a line of its own, and a bare listing. -/
theorem assemble_presentation_looped :
    ∃ compiled renamed,
      compile ⟨0, "a\n  ; b"⟩ looped = .ok compiled ∧ Silent .standard "a\n  ; b" ∧
        Silent ⟨false, 40⟩ "c\nSTOP" ∧
        (Listing.Layout.standard.width ≤ Listing.Layout.widest ↔
          Listing.Layout.width ⟨false, 40⟩ ≤ Listing.Layout.widest) ∧
        compile ⟨0, "c\nSTOP"⟩ looped = .ok renamed ∧
        ∀ symbols,
          outcome (assemble symbols (compiled.program.listing .standard)) =
            outcome (assemble symbols (renamed.program.listing ⟨false, 40⟩)) := by
  have hOk : (compile ⟨0, "a\n  ; b"⟩ looped).isOk = true := by
    decide +kernel
  have hName : Silent .standard "a\n  ; b" := by decide +kernel
  have hName' : Silent ⟨false, 40⟩ "c\nSTOP" := by decide +kernel
  have hWidth : Listing.Layout.standard.width ≤ Listing.Layout.widest ↔
        Listing.Layout.width ⟨false, 40⟩ ≤ Listing.Layout.widest := by
    decide
  rcases isOk_eq_true.mp hOk with ⟨compiled, hCompiled⟩
  rcases assemble_presentation hCompiled hName hName' hWidth with ⟨renamed, hRenamed, hSame⟩
  exact ⟨compiled, renamed, hCompiled, hName, hName', hWidth, hRenamed, hSame⟩

/-
  A line of a name that is not blank is assembled with the
  script, and labels in a column that is too wide are refused.
-/
theorem assemble_presentation_differs :
    ∃ compiled renamed,
      compile ⟨0, "a"⟩ "print(5)\n" = .ok compiled ∧
        compile ⟨0, "a\nSTOP"⟩ "print(5)\n" = .ok renamed ∧
        (outcome (assemble .empty (compiled.program.listing ⟨false, 9⟩))).2 =
          .ok [0x12, 0, 3, 0x27, 0x38, 0, 5, 0] ∧
        (outcome (assemble .empty (renamed.program.listing .standard))).2 =
          .ok [0, 0x12, 0, 4, 0x27, 0x38, 0, 5, 0] ∧
        (outcome (assemble .empty
          (compiled.program.listing ⟨false, 1000001⟩))).2 =
            .error (some (.label (.malformed "%!(BADWIDTH)tl_1"))) := by
  have hCompiled : (compile ⟨0, "a"⟩ "print(5)\n").toOption.any (fun compiled =>
        decide ((outcome (assemble .empty (compiled.program.listing ⟨false, 9⟩))).2 =
                .ok [0x12, 0, 3, 0x27, 0x38, 0, 5, 0] ∧ (outcome (assemble .empty (Program.listing
                { compiled.program with source := "a\nSTOP" } .standard))).2 =
                  .ok [0, 0x12, 0, 4, 0x27, 0x38, 0, 5, 0] ∧ (outcome (assemble .empty
              (compiled.program.listing ⟨false, 1000001⟩))).2 = .error
                  (some (.label (.malformed "%!(BADWIDTH)tl_1"))))) =
        true := by
    decide +kernel
  rcases Result.any_eq_true.mp hCompiled with ⟨compiled, hOk, hAll⟩
  exact ⟨compiled, _, hOk, compile_renamed "a\nSTOP" hOk, of_decide_eq_true hAll⟩

end Compile

end Pep9
