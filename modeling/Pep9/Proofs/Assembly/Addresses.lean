import Pep9.Proofs.Assembly.Passes

/-
  The two passes of the assembler agree. What the first pass
  has laid out, the second pass can read, and the addresses of
  the first are the lengths of what the second writes.

  Key theorems: `firstPass_eq_layOut`, `secondPass_address`,
  `passes_agree`.
-/

namespace Pep9

open List Result

variable {chunks : List Chunk} {content : Line} {label mode operand : String}

namespace Assembly

variable {plan last next : Plan} {line : NumberedLine} {statement : Statement}
  {lines before behind : List NumberedLine} {symbols : Symbols} {cause : Cause} {m : Isa.Mnemonic}

/-
  The first pass with all of its state: the symbols, the next
  address, and whether the text has ended.
-/
def layOut (plan : Plan) : List NumberedLine → Plan × Option Error
  | [] => (plan, if plan.ended then none else some .missingEnd)
  | line :: rest =>
    match line.content with
    | .error fault => (plan, some (.atLine line.number (.label fault)))
    | .ok content =>
      match plan.takeLine content with
      | (next, none) => layOut next rest
      | (next, some cause) => (next, some (.atLine line.number cause))

theorem firstPass_eq_layOut
    (plan : Plan)
    (lines : List NumberedLine) :
    firstPass plan lines =
      ((layOut plan lines).1.symbols, (layOut plan lines).2) := by
  induction lines generalizing plan with
  | nil => rfl
  | cons line _ ih =>
    rw [firstPass, layOut]
    cases line.content with
    | error => rfl
    | ok content =>
      dsimp only
      rcases plan.takeLine content with ⟨next, cause?⟩
      cases cause? with
      | none => exact ih next
      | some => rfl

theorem layOut_cons {rest : List NumberedLine}
    (h : layOut plan (line :: rest) = (last, none)) :
    ∃ content next, line.content = .ok content ∧ plan.takeLine content = (next, none) ∧
        layOut next rest = (last, none) := by
  rw [layOut] at h
  split at h
  · cases h
  · next content hContent =>
    split at h
    · next next hTaken => exact ⟨content, next, hContent, hTaken, h⟩
    · cases h

/-
  Causes that depend on the operands of an instruction and on
  what they stand for.
-/
def Cause.OfOperands : Cause → Prop
  | .operandsOfUnary _ => True
  | .operandsOfBranch _ => True
  | .operandsOfGeneral _ => True
  | .unknownMode _ => True
  | .illegalMode _ _ => True
  | .undefinedSymbol _ => True
  | .invalidOperand _ => True
  | _ => False

/-
  A line that is laid out can be read. Behind the end of the
  text nothing is laid out.
-/
theorem Plan.takeLine_readable {line : Line}
    (h : plan.takeLine line = (next, none)) :
    line.statement.Readable ∧ (plan.ended = true → line.isEmpty = true ∧ next = plan) ∧
      (plan.ended = false → (next.ended = true ↔ line.statement = .finish)) := by
  rcases Plan.takeLine_eq_ok h with ⟨rfl, rfl⟩ | ⟨hOpen, _, hBound, hTaken⟩
  · exact ⟨trivial, fun _ => ⟨rfl, rfl⟩, fun hGoes => by simp [hGoes]⟩
  · have hEnded := Plan.bindLabel_ended hBound
    rcases Plan.takeStatement_eq_ok hTaken with ⟨hReadable, hNext, _⟩
    rw [hEnded, hOpen] at hNext
    refine ⟨hReadable, fun hOver => ?_, fun _ => by simpa using hNext⟩
    rw [hOpen] at hOver
    cases hOver

/- Lines that are laid out behind the end have nothing on them. -/
theorem layOut_ended
    (hEnded : plan.ended = true)
    (h : layOut plan lines = (last, none)) :
    last = plan ∧ ∀ line ∈ lines, ∃ content,
        line.content = .ok content ∧ content.isEmpty = true := by
  induction lines with
  | nil => exact ⟨(Prod.mk.inj h).1.symm, nofun⟩
  | cons _ _ ih =>
    rcases layOut_cons h with ⟨content, _, hContent, hTaken, hRest⟩
    rcases (Plan.takeLine_readable hTaken).2.1 hEnded with ⟨hEmpty, rfl⟩
    rcases ih hRest with ⟨hLast, hOthers⟩
    refine ⟨hLast, fun other hOther => ?_⟩
    rcases mem_cons.mp hOther with rfl | hOther
    · exact ⟨content, hContent, hEmpty⟩
    · exact hOthers other hOther

theorem layOut_readable (h : layOut plan lines = (last, none)) :
    ∀ line ∈ lines, ∃ content,
      line.content = .ok content ∧ content.statement.Readable := by
  induction lines generalizing plan with
  | nil => nofun
  | cons _ _ ih =>
    rcases layOut_cons h with ⟨content, _, hContent, hTaken, hRest⟩
    intro other hOther
    rcases mem_cons.mp hOther with rfl | hOther
    · exact ⟨content, hContent, (Plan.takeLine_readable hTaken).1⟩
    · exact ih hRest other hOther

/-
  Where a line with a label is laid out, the text has not ended
  on a line before it.
-/
theorem layOut_goes
    (h : layOut plan (before ++ line :: behind) = (last, none))
    (hContent : line.content = .ok content)
    (hLabel : content.label = some label) :
    ∀ other ∈ before, ∀ found, other.content = .ok found → found.statement ≠ .finish := by
  -- The line with its label is not laid out behind an end.
  have hOpen : ∀ (plan : Plan) (lines : List NumberedLine),
        layOut plan (lines ++ line :: behind) = (last, none) → plan.ended = false := by
    intro plan _ hLaid
    cases hEnded : plan.ended with
    | false => rfl
    | true =>
      rcases (layOut_ended hEnded hLaid).2 line (by simp) with ⟨_, hFound, hEmpty⟩
      cases hContent.symm.trans hFound
      simp [Line.isEmpty, hLabel] at hEmpty
  induction before generalizing plan with
  | nil =>
    intro _ hOther
    cases hOther
  | cons first rest ih =>
    rw [cons_append] at h
    rcases layOut_cons h with ⟨_, next, hFound, hTaken, hRest⟩
    have hNext := (Plan.takeLine_readable hTaken).2.2 (hOpen plan (first :: rest) h)
    intro other hOther found' hFound' hFinish
    rcases mem_cons.mp hOther with rfl | hOther
    · cases hFound.symm.trans hFound'
      have hEnded := hNext.mpr hFinish
      rw [hOpen next rest hRest] at hEnded
      cases hEnded
    · exact ih hRest other hOther found' hFound' hFinish

theorem resolve_fault (h : resolve symbols operand = .error cause) :
    cause.OfOperands := by
  unfold resolve at h
  split at h
  · cases h
  · split at h
    · cases h
    · split at h
      · cases h
        trivial
      · cases h
        trivial

theorem encodeWith_fault {field : UInt8}
    (h : encodeWith symbols m field operand = .error cause) :
    cause.OfOperands := by
  unfold encodeWith at h
  rcases bind_eq_error.mp h with hFault | ⟨_, _, hDone⟩
  · exact resolve_fault hFault
  · cases hDone

theorem branchField_fault (h : branchField m mode = .error cause) :
    cause.OfOperands := by
  unfold branchField at h
  split at h
  · cases h
  · split at h
    · cases h
    · cases h
      trivial

theorem generalField_fault (h : generalField m mode = .error cause) :
    cause.OfOperands := by
  unfold generalField at h
  split at h
  · cases h
    trivial
  · split at h
    · cases h
      trivial
    · cases h

theorem encodeInstruction_fault {operands : List String}
    (h : encodeInstruction symbols m operands = .error cause) :
    cause.OfOperands := by
  unfold encodeInstruction at h
  split at h
  · cases h
  · cases h
    trivial
  · exact encodeWith_fault h
  · rcases bind_eq_error.mp h with hField | ⟨_, _, hWith⟩
    · exact branchField_fault hField
    · exact encodeWith_fault hWith
  · cases h
    trivial
  · rcases bind_eq_error.mp h with hField | ⟨_, _, hWith⟩
    · exact generalField_fault hField
    · exact encodeWith_fault hWith
  · cases h
    trivial

/- A statement that can be read fails on its operands only. -/
theorem encode_fault
    (hReadable : statement.Readable)
    (h : encode symbols statement = .error cause) :
    cause.OfOperands := by
  unfold encode at h
  split at h
  · cases h
  · cases h
  · cases h
  · rcases hReadable with ⟨_, rfl⟩
    rcases bind_eq_error.mp h with hFault | ⟨_, _, hDone⟩
    · exact resolve_fault hFault
    · cases hDone
  · rcases hReadable with ⟨_, _, rfl, hSize⟩
    dsimp only at h
    rw [hSize] at h
    cases h
  · rcases bind_eq_error.mp h with hFault | ⟨_, _, hDone⟩
    · exact encodeInstruction_fault hFault
    · cases hDone
  · cases hReadable

theorem secondPass_fault {error : Error}
    (hReadable : ∀ line ∈ lines, ∃ content,
        line.content = .ok content ∧ content.statement.Readable)
    (h : secondPass symbols lines = .error error) :
    ∃ number cause, error = .atLine number cause ∧ cause.OfOperands := by
  induction lines with
  | nil => cases h
  | cons line _ ih =>
    rcases hReadable line mem_cons_self with ⟨_, hContent, hStatement⟩
    have hOthers := fun other hOther => hReadable other (mem_cons_of_mem line hOther)
    rw [secondPass, hContent] at h
    dsimp only at h
    split at h
    · cases h
    · split at h
      · next cause hCause =>
        cases h
        exact ⟨line.number, cause, rfl, encode_fault hStatement hCause⟩
      · exact ih hOthers h
      · rcases bind_eq_error.mp h with hFault | ⟨_, _, hDone⟩
        · exact ih hOthers hFault
        · cases hDone

------------------------------------------------------------
-- Lengths of the Second Pass
------------------------------------------------------------

theorem Encoded.length_eq {contents : List Line} {bytes : List UInt8}
    (hGoes : ∀ line ∈ contents, line.statement ≠ .finish)
    (h : Encoded symbols contents bytes) :
    bytes.length = (contents.map fun l => l.statement.size).sum := by
  induction h with
  | nil => rfl
  | @finish line _ hFinish => exact absurd hFinish (hGoes line mem_cons_self)
  | @line _ _ _ _ _ hBytes _ ih =>
    rw [length_append, encode_length hBytes,
      ih fun other hOther => hGoes other (mem_cons_of_mem _ hOther),
      map_cons, sum_cons]

/- The last address is behind all that the second pass writes. -/
theorem secondPass_address
    (hGoes : plan.ended = false)
    (h : layOut plan lines = (last, none))
    (hSecond : secondPass symbols lines = .ok chunks) :
    last.address = plan.address + (Object.mk chunks).bytes.length := by
  induction lines generalizing plan chunks with
  | nil =>
    rw [layOut, hGoes] at h
    cases h
  | cons _ _ ih =>
    rcases layOut_cons h with ⟨_, next, hContent, hTaken, hRest⟩
    have hAddress := (Plan.takeLine_laid hTaken).address
    have hEnded := (Plan.takeLine_readable hTaken).2.2 hGoes
    rw [secondPass, hContent] at hSecond
    dsimp only at hSecond
    split at hSecond
    · next hFinish =>
      cases hSecond
      rw [(layOut_ended (hEnded.mpr hFinish) hRest).1, hAddress, hFinish]
      rfl
    · next hOn =>
      have hNext : next.ended = false := Bool.eq_false_iff.mpr fun hOver => hOn (hEnded.mp hOver)
      split at hSecond
      · cases hSecond
      · next hBytes =>
        rw [ih hNext hRest hSecond, hAddress, ← encode_length hBytes]
        rfl
      · next bytes hBytes =>
        rcases seq hSecond with ⟨_, hMore, hDone⟩
        cases hDone
        rw [ih hNext hRest hMore, hAddress, ← encode_length hBytes, Nat.add_assoc]
        simp [Object.bytes]

/- Lines before some place are encoded as they are on their own. -/
theorem secondPass_append
    (hGoes :
      ∀ line ∈ before, ∀ content, line.content = .ok content → content.statement ≠ .finish)
    (h : secondPass symbols (before ++ behind) = .ok chunks) :
    ∃ earlier later, chunks = earlier ++ later ∧ secondPass symbols before = .ok earlier := by
  induction before generalizing chunks with
  | nil => exact ⟨[], chunks, rfl, rfl⟩
  | cons line _ ih =>
    have hOthers := fun other hOther => hGoes other (mem_cons_of_mem line hOther)
    rw [cons_append, secondPass] at h
    rw [secondPass]
    split at h
    · cases h
    · next content hContent =>
      have hOn := hGoes line mem_cons_self content hContent
      rw [if_neg hOn] at h ⊢
      split at h
      · cases h
      · exact ih hOthers h
      · next bytes hBytes =>
        rcases seq h with ⟨_, hMore, hDone⟩
        cases hDone
        rcases ih hOthers hMore with ⟨_, later, rfl, hEarlier⟩
        refine ⟨_, later, (cons_append ..).symm, ?_⟩
        rw [hEarlier]
        rfl

/- How the second pass goes on from the state that the first left. -/
structure PassesAgree (lines : List NumberedLine) (last : Plan) : Prop where
  readable : ∀ line ∈ lines, ∃ content, line.content = .ok content ∧ content.statement.Readable
  fault : ∀ error, secondPass last.symbols lines = .error error →
      ∃ number cause, error = .atLine number cause ∧ cause.OfOperands
  length : ∀ chunks, secondPass last.symbols lines = .ok chunks →
      (Object.mk chunks).bytes.length = last.address
  label : ∀ chunks, secondPass last.symbols lines = .ok chunks → ∀ before line behind content label,
        lines = before ++ line :: behind → line.content = .ok content → content.label = some label →
        (∀ operands, content.statement ≠ .equate operands) → ∃ earlier later,
            chunks = earlier ++ later ∧ secondPass last.symbols before = .ok earlier ∧
              last.symbols.lookup? label = some (UInt16.ofNat (Object.mk earlier).bytes.length)
  equate : ∀ line ∈ lines, ∀ content operands label, line.content = .ok content →
      content.statement = .equate operands → content.label = some label → ∃ operand n,
          operands = [operand] ∧ Text.Numeral.readInt 32 operand.toList = .ok n ∧
            last.symbols.lookup? label = some (UInt16.ofInt n)

/- A word that can be read is a number without its higher bits. -/
theorem readWord?_eq_some {s : String} {w : UInt16}
    (h : readWord? s = some w) :
    ∃ n, Text.Numeral.readInt 32 s.toList = .ok n ∧ w = UInt16.ofInt n := by
  unfold readWord? at h
  split at h
  · cases h
  · next n hRead =>
    split at h
    · cases h
    · cases h
      exact ⟨n, hRead, rfl⟩

theorem Statement.value?_of_place
    (address : Nat)
    (h : ∀ operands, statement ≠ .equate operands) :
    statement.value? address = some (UInt16.ofNat address) := by
  cases statement with
  | equate operands => exact absurd rfl (h operands)
  | _ => rfl

/- The value of a label, from the sizes of the lines before it. -/
theorem lookup_label
    (h : layOut plan (before ++ line :: behind) = (last, none))
    (hContent : line.content = .ok content)
    (hLabel : content.label = some label) :
    ∃ (contents : List Line) (w : UInt16), before.map NumberedLine.content = contents.map .ok ∧
        content.statement.value? (plan.address + (contents.map fun l => l.statement.size).sum) =
            some w ∧ last.symbols.lookup? label = some w := by
  have hFirst := firstPass_eq_layOut plan (before ++ line :: behind)
  rw [h] at hFirst
  rcases firstPass_labelled hFirst with ⟨_, _, hAll, hLabelled, _⟩
  rw [map_append, map_cons] at hAll
  rcases append_eq_map_iff.mp hAll with ⟨contents, _, rfl, hContents, hOthers⟩
  rcases map_eq_cons_iff.mp hOthers with ⟨_, _, rfl, hFound, _⟩
  cases hContent.symm.trans hFound.symm
  rcases (labelled_append.mp hLabelled).2.1 label hLabel with ⟨w, hValue, hLookup⟩
  exact ⟨contents, w, hContents.symm, hValue, hLookup⟩

/- The passes agree on every text that the first one takes. -/
theorem passes_agree {symbols known : Symbols} {text : String}
    (h : firstPass (.start symbols) (numberedLines text) = (known, none)) :
    ∃ last, layOut (.start symbols) (numberedLines text) = (last, none) ∧
      last.symbols = known ∧
      PassesAgree (numberedLines text) last := by
  generalize numberedLines text = lines at h ⊢
  rw [firstPass_eq_layOut] at h
  rcases Prod.mk.inj h with ⟨hKnown, hNone⟩
  have hLaid : layOut (.start symbols) lines = ((layOut (.start symbols) lines).1, none) :=
    Prod.ext rfl hNone
  generalize (layOut (.start symbols) lines).1 = last at hKnown hLaid
  have hReadable := layOut_readable hLaid
  refine ⟨last, hLaid, hKnown, hReadable, ?_, ?_, ?_, ?_⟩
  · exact fun error hError => secondPass_fault hReadable hError
  · intro _ hChunks
    rw [secondPass_address rfl hLaid hChunks]
    exact (Nat.zero_add _).symm
  · rintro _ hChunks before _ _ _ _ rfl hContent hLabel hPlace
    have hGoes := layOut_goes hLaid hContent hLabel
    rcases secondPass_append hGoes hChunks with ⟨earlier, later, rfl, hEarlier⟩
    rcases lookup_label hLaid hContent hLabel with ⟨_, _, hContents, hValue, hLookup⟩
    have hSizes := (secondPass_encoded hContents hEarlier).length_eq (by
      intro other hOther
      have hMem : Except.ok other ∈ before.map NumberedLine.content := by
        rw [hContents]
        exact mem_map_of_mem hOther
      rcases mem_map.mp hMem with ⟨raw, hRaw, hFound⟩
      exact hGoes raw hRaw other hFound)
    rw [Statement.value?_of_place _ hPlace, ← hSizes] at hValue
    refine ⟨earlier, later, rfl, hEarlier, ?_⟩
    rw [hLookup, ← hValue]
    exact congrArg (fun n => some (UInt16.ofNat n)) (Nat.zero_add _)
  · intro line hLine _ _ _ hContent hEquate hLabel
    rcases append_of_mem hLine with ⟨_, _, rfl⟩
    rcases lookup_label hLaid hContent hLabel with ⟨_, _, _, hValue, hLookup⟩
    rcases hReadable line hLine with ⟨_, hFound, hStatement⟩
    cases hContent.symm.trans hFound
    rw [hEquate] at hValue hStatement
    rcases hStatement with ⟨operand, _, rfl, _⟩
    rcases readWord?_eq_some hValue with ⟨n, hRead, rfl⟩
    exact ⟨operand, n, rfl, hRead, hLookup⟩

/- A branch forward, a number, storage and a label at the end. -/
def forwardText : String :=
  "BR main\nn: .EQUATE -3\nbuf: .BLOCK 4\nmain:\nLDWA n,i\n" ++ "STWA buf,d\nSTOP\nlast: .END\n"

theorem passes_agree_forward :
    firstPass (.start ⟨[("old", 7)]⟩) (numberedLines forwardText) =
        (⟨[("old", 7), ("n", 65533), ("buf", 3), ("main", 7), ("last", 14)]⟩, none) ∧
      ∃ last,
        layOut (.start ⟨[("old", 7)]⟩) (numberedLines forwardText) = (last, none) ∧
        last.symbols =
          ⟨[("old", 7), ("n", 65533), ("buf", 3), ("main", 7), ("last", 14)]⟩ ∧
        PassesAgree (numberedLines forwardText) last := by
  have hFirst : firstPass (.start ⟨[("old", 7)]⟩) (numberedLines forwardText) =
        (⟨[("old", 7), ("n", 65533), ("buf", 3), ("main", 7), ("last", 14)]⟩, none) := by
    decide +kernel
  exact ⟨hFirst, passes_agree hFirst⟩

end Assembly

end Pep9
