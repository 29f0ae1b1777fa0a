import Mathlib.Algebra.GroupWithZero.Nat
import Pep9.Assembly.Object
import Pep9.Proofs.Result

/-
  The two passes of the assembler. Where both succeed, a
  label stands for the number of bytes before it, and the
  object code is the bytes of the lines in their order.

  Key theorems: `Plan.takeLine_laid`, `firstPass_labelled`,
  `secondPass_encoded`, `assemble_passes`.
-/

namespace Pep9

open List Result

variable {address : Nat} {before behind : List Line} {known : Symbols} {m : Isa.Mnemonic}
  {statement : Statement}

namespace Assembly

variable {symbols : Symbols} {bytes : List UInt8} {plan next : Plan}

theorem lookup_entry
    (name other : String)
    (value : UInt16)
    (rest : List (String × UInt16)) :
    ((name, value) :: rest).lookup other =
      if other = name then some value else rest.lookup other := by
  rw [lookup_cons]
  by_cases hName : other = name
  · rw [if_pos hName, beq_iff_eq.mpr hName]
  · rw [if_neg hName, beq_eq_false_iff_ne.mpr hName]

theorem lookup_setIn
    (name other : String)
    (value : UInt16)
    (entries : List (String × UInt16)) :
    (Symbols.setIn name value entries).lookup other =
      if other = name then some value else entries.lookup other := by
  induction entries with
  | nil => rw [Symbols.setIn, lookup_entry]
  | cons entry _ ih =>
    rcases entry with ⟨first, _⟩
    rw [Symbols.setIn]
    by_cases hFirst : first = name
    · subst hFirst
      rw [if_pos rfl, lookup_entry, lookup_entry]
      by_cases hName : other = first
      · rw [if_pos hName, if_pos hName]
      · rw [if_neg hName, if_neg hName, if_neg hName]
    · rw [if_neg hFirst, lookup_entry, lookup_entry, ih]
      by_cases hOther : other = first
      · subst hOther
        rw [if_pos rfl, if_neg hFirst, if_pos rfl]
      · rw [if_neg hOther, if_neg hOther]

@[simp]
theorem Symbols.lookup?_set
    (symbols : Symbols)
    (name other : String)
    (value : UInt16) :
    (symbols.set name value).lookup? other =
      if other = name then some value else symbols.lookup? other :=
  lookup_setIn name other value symbols.entries

/- All that is known stays known, with the same value. -/
def Symbols.Keeps (symbols later : Symbols) : Prop :=
  ∀ name value, symbols.lookup? name = some value → later.lookup? name = some value

theorem Symbols.Keeps.refl (symbols : Symbols) :
    symbols.Keeps symbols := fun _ _ h => h

theorem Symbols.Keeps.trans {middle later : Symbols}
    (h : symbols.Keeps middle)
    (h' : middle.Keeps later) :
    symbols.Keeps later :=
  fun name value hName => h' name value (h name value hName)

/- A symbol that is not known can be given any value. -/
theorem Symbols.Keeps.set {name : String}
    (value : UInt16)
    (h : symbols.lookup? name = none) :
    symbols.Keeps (symbols.set name value) := by
  intro _ _ hOther
  rw [Symbols.lookup?_set, if_neg]
  · exact hOther
  · rintro rfl
    cases h.symm.trans hOther

def Statement.size : Statement → Nat
  | .word _ => 2
  | .block [operand] => ((readWord? operand).map UInt16.toNat).getD 0
  | .instruction mnemonic _ => mnemonic.length
  | _ => 0

/- The value of the label of a statement at some address. -/
def Statement.value? (address : Nat) : Statement → Option UInt16
  | .equate [operand] => readWord? operand
  | _ => some (UInt16.ofNat address)

/-
  A statement with a name that is known. The operand of a
  directive is there, and a number where it has to be one.
-/
def Statement.Readable : Statement → Prop
  | .equate operands => ∃ operand value, operands = [operand] ∧ readWord? operand = some value
  | .word operands => ∃ operand, operands = [operand]
  | .block operands => ∃ operand size, operands = [operand] ∧ readWord? operand = some size
  | .unknown _ => False
  | _ => True

theorem Line.isEmpty_iff {line : Line} :
    line.isEmpty = true ↔ line = ⟨none, .empty⟩ := by
  rcases line with ⟨_, _⟩
  simp [Line.isEmpty]

theorem encodeWith_length {field : UInt8} {operand : String}
    (h : encodeWith symbols m field operand = .ok bytes) :
    bytes.length = 3 := by
  rcases seq h with ⟨_, _, hDone⟩
  cases hDone
  rfl

theorem encodeInstruction_length {operands : List String}
    (h : encodeInstruction symbols m operands = .ok bytes) :
    bytes.length = m.length := by
  unfold encodeInstruction at h
  unfold Isa.Mnemonic.length
  split at h
  · next hForm =>
    cases h
    rw [hForm]
    rfl
  · cases h
  · next hForm =>
    rw [hForm]
    exact encodeWith_length h
  · next hForm =>
    rcases seq h with ⟨_, _, hDone⟩
    rw [hForm]
    exact encodeWith_length hDone
  · cases h
  · next hForm =>
    rcases seq h with ⟨_, _, hDone⟩
    rw [hForm]
    exact encodeWith_length hDone
  · cases h

/- What is encoded has the size of the first pass. -/
theorem encode_length {bytes? : Option (List UInt8)}
    (h : encode symbols statement = .ok bytes?) :
    (bytes?.getD []).length = statement.size := by
  unfold encode at h
  split at h
  · cases h
    rfl
  · cases h
    rfl
  · cases h
    rfl
  · split at h
    · rcases seq h with ⟨_, _, hDone⟩
      cases hDone
      rfl
    · cases h
  · split at h
    · split at h
      · next operand size hSize =>
        cases h
        simp [Statement.size, hSize]
      · cases h
    · cases h
  · rcases seq h with ⟨_, hBytes, hDone⟩
    cases hDone
    exact encodeInstruction_length hBytes
  · cases h

/- What laying out a line does. -/
structure Plan.Laid (plan : Plan) (line : Line) (next : Plan) : Prop where
  address : next.address = plan.address + line.statement.size
  keeps : plan.symbols.Keeps next.symbols
  label : ∀ label, line.label = some label → ∃ w, line.statement.value? plan.address = some w ∧
        next.symbols.lookup? label = some w
  only : ∀ name, line.label ≠ some name → next.symbols.lookup? name = plan.symbols.lookup? name

/- A line that gives a value to a new label. -/
theorem Plan.Laid.bound {line : Line} {label : String} {w : UInt16}
    (hAddress : next.address = plan.address + line.statement.size)
    (hLabel : line.label = some label)
    (hNew : plan.symbols.lookup? label = none)
    (hValue : line.statement.value? plan.address = some w)
    (hSymbols :
      ∀ name, next.symbols.lookup? name = (plan.symbols.set label w).lookup? name) :
    plan.Laid line next where
  address := hAddress
  keeps := by
    intro name value hName
    rw [hSymbols]
    exact Symbols.Keeps.set _ hNew name value hName
  label := by
    intro _ hOther
    cases hLabel.symm.trans hOther
    refine ⟨w, hValue, ?_⟩
    rw [hSymbols, Symbols.lookup?_set, if_pos rfl]
  only := by
    intro _ hName
    rw [hSymbols, Symbols.lookup?_set, if_neg]
    rintro rfl
    exact hName hLabel

theorem Plan.take_eq_ok {bytes : Nat}
    (h : plan.take bytes = .ok next) :
    next = { plan with address := plan.address + bytes } := by
  unfold Plan.take at h
  split at h
  · cases h
  · cases h
    rfl

theorem Plan.bindLabel_eq_ok {label : String}
    (h : plan.bindLabel (some label) = .ok next) :
    plan.symbols.lookup? label = none ∧
      next = { plan with
        symbols := plan.symbols.set label (UInt16.ofNat plan.address) } := by
  rw [Plan.bindLabel] at h
  split at h
  · cases h
  · split at h
    · cases h
    · next hNew =>
      cases h
      refine ⟨?_, rfl⟩
      rwa [Bool.not_eq_true, Option.isSome_eq_false_iff, Option.isNone_iff_eq_none] at hNew

theorem Plan.bindLabel_ended {label : Option String}
    (h : plan.bindLabel label = .ok next) :
    next.ended = plan.ended := by
  cases label with
  | none =>
    cases h
    rfl
  | some => rw [(Plan.bindLabel_eq_ok h).2]

/-
  What laying out a statement does with the symbols: only an
  equate changes them, and that of its own label.
-/
theorem Plan.takeStatement_eq_ok {label : Option String}
    (h : plan.takeStatement label statement = .ok next) :
    statement.Readable ∧ (next.ended = true ↔ plan.ended = true ∨ statement = .finish) ∧
      next.address = plan.address + statement.size ∧ ((next.symbols = plan.symbols ∧
          ∀ address, statement.value? address = some (UInt16.ofNat address)) ∨
        ∃ name w, label = some name ∧ statement.value? plan.address = some w ∧
          next.symbols = plan.symbols.set name w) := by
  unfold Plan.takeStatement at h
  split at h
  · cases h
    exact ⟨trivial, by simp, rfl, .inl ⟨rfl, fun _ => rfl⟩⟩
  · cases h
    exact ⟨trivial, by simp, rfl, .inl ⟨rfl, fun _ => rfl⟩⟩
  · split at h
    · next name operand =>
      split at h
      · next value hValue =>
        cases h
        exact ⟨⟨operand, value, rfl, hValue⟩, by simp, rfl, .inr ⟨name, value, rfl, hValue, rfl⟩⟩
      · cases h
    · cases h
  · split at h
    · next hLength =>
      rw [Plan.take_eq_ok h]
      exact ⟨length_eq_one_iff.mp hLength, by simp, rfl, .inl ⟨rfl, fun _ => rfl⟩⟩
    · cases h
  · split at h
    · next operand =>
      split at h
      · next size hSize =>
        rw [Plan.take_eq_ok h]
        refine ⟨⟨operand, size, rfl, hSize⟩, by simp, ?_, .inl ⟨rfl, fun _ => rfl⟩⟩
        simp [Statement.size, hSize]
      · cases h
    · cases h
  · rw [Plan.take_eq_ok h]
    exact ⟨trivial, by simp, rfl, .inl ⟨rfl, fun _ => rfl⟩⟩
  · cases h

section

variable {line : Line} (h : plan.takeLine line = (next, none))
include h

/- A line that is laid out has nothing on it, or stands before the end. -/
theorem Plan.takeLine_eq_ok :
    line = ⟨none, .empty⟩ ∧ next = plan ∨ plan.ended = false ∧
      ∃ bound, plan.bindLabel line.label = .ok bound ∧
        bound.takeStatement line.label line.statement = .ok next := by
  unfold Plan.takeLine at h
  split at h
  · next hEmpty =>
    cases h
    exact .inl ⟨Line.isEmpty_iff.mp hEmpty, rfl⟩
  · split at h
    · cases h
    · next hOpen =>
      split at h
      · cases h
      · next bound hBound =>
        split at h
        · cases h
        · next hTaken =>
          cases h
          exact .inr ⟨Bool.eq_false_iff.mpr hOpen, bound, hBound, hTaken⟩

theorem Plan.takeLine_laid :
    plan.Laid line next := by
  rcases Plan.takeLine_eq_ok h with ⟨rfl, rfl⟩ | ⟨_, _, hBound, hTaken⟩
  · exact ⟨rfl, .refl _, nofun, fun _ _ => rfl⟩
  · rcases Plan.takeStatement_eq_ok hTaken with ⟨_, _, hAddress, hSymbols⟩
    cases hLabel : line.label with
    | none =>
      rw [hLabel] at hBound hSymbols
      cases hBound
      rcases hSymbols with ⟨hSame, _⟩ | ⟨_, _, hName, _⟩
      · refine ⟨hAddress, ?_, ?_, ?_⟩
        · rw [hSame]
          exact .refl _
        · intro _ h
          cases hLabel.symm.trans h
        · intro _ _
          rw [hSame]
      · cases hName
    | some =>
      rw [hLabel] at hBound hSymbols
      rcases Plan.bindLabel_eq_ok hBound with ⟨hNew, rfl⟩
      rcases hSymbols with ⟨hSame, hValue⟩ | ⟨_, _, hName, hValue, hSet⟩
      · refine .bound hAddress hLabel hNew (hValue _) ?_
        rw [hSame]
        exact fun _ => rfl
      · cases hName
        refine .bound hAddress hLabel hNew hValue fun other => ?_
        rw [hSet, Symbols.lookup?_set, Symbols.lookup?_set, Symbols.lookup?_set]
        split <;> rfl

end

/-
  From an address on, each label of some lines has the value
  that its place gives it.
-/
def Labelled (symbols : Symbols) (address : Nat) : List Line → Prop
  | [] => True
  | line :: rest =>
    (∀ label, line.label = some label → ∃ w, line.statement.value? address = some w ∧
        symbols.lookup? label = some w) ∧
    Labelled symbols (address + line.statement.size) rest

/- A first pass that succeeds gives all labels their values. -/
theorem firstPass_labelled {lines : List NumberedLine}
    (h : firstPass plan lines = (known, none)) :
    plan.symbols.Keeps known ∧
      ∃ contents, lines.map NumberedLine.content = contents.map .ok ∧
          Labelled known plan.address contents ∧
          ∀ name, (∀ line ∈ contents, line.label ≠ some name) →
            known.lookup? name = plan.symbols.lookup? name := by
  induction lines generalizing plan with
  | nil =>
    rcases Prod.mk.inj h with ⟨rfl, _⟩
    exact ⟨.refl _, [], rfl, trivial, fun _ _ => rfl⟩
  | cons _ _ ih =>
    rw [firstPass] at h
    split at h
    · cases h
    · next content hContent =>
      split at h
      · next next hTaken =>
        have hLaid := Plan.takeLine_laid hTaken
        rcases ih h with ⟨hKeeps, contents, hContents, hLabelled, hOnly⟩
        refine ⟨hLaid.keeps.trans hKeeps, content :: contents, ?_, ?_, ?_⟩
        · rw [map_cons, map_cons, hContent, hContents]
        · refine ⟨fun label hLabel => ?_, ?_⟩
          · rcases hLaid.label label hLabel with ⟨w, hValue, hNext⟩
            exact ⟨w, hValue, hKeeps _ _ hNext⟩
          · rw [← hLaid.address]
            exact hLabelled
        · intro name hName
          rw [hOnly name fun other hOther => hName other (mem_cons_of_mem _ hOther)]
          exact hLaid.only name (hName content mem_cons_self)
      · cases h

------------------------------------------------------------
-- The Second Pass
------------------------------------------------------------

/- The bytes of some lines up to the end of their text. -/
inductive Encoded (symbols : Symbols) : List Line → List UInt8 → Prop where
  | nil : Encoded symbols [] []
  | finish {line : Line} {rest : List Line} (hFinish : line.statement = .finish) :
      Encoded symbols (line :: rest) []
  | line {line : Line} {rest : List Line} {bytes? : Option (List UInt8)} {others : List UInt8}
      (hGoes : line.statement ≠ .finish) (hBytes : encode symbols line.statement = .ok bytes?)
      (hRest : Encoded symbols rest others) :
      Encoded symbols (line :: rest) (bytes?.getD [] ++ others)

/- The second pass encodes all lines in their order. -/
theorem secondPass_encoded {lines : List NumberedLine} {contents : List Line}
    {chunks : List Chunk}
    (hContents : lines.map NumberedLine.content = contents.map .ok)
    (h : secondPass symbols lines = .ok chunks) :
    Encoded symbols contents (Object.mk chunks).bytes := by
  induction lines generalizing contents chunks with
  | nil =>
    cases contents with
    | nil =>
      cases h
      exact .nil
    | cons => cases hContents
  | cons _ _ ih =>
    cases contents with
    | nil => cases hContents
    | cons =>
      rcases List.cons.inj hContents with ⟨hContent, hOthers⟩
      rw [secondPass, hContent] at h
      dsimp only at h
      split at h
      · next hFinish =>
        cases h
        exact .finish hFinish
      · next hGoes =>
        split at h
        · cases h
        · next hBytes => exact .line hGoes hBytes (ih hOthers h)
        · next bytes hBytes =>
          rcases seq h with ⟨_, hRest, hDone⟩
          cases hDone
          exact .line hGoes hBytes (ih hOthers hRest)

theorem numberedLines_contents (text : String) :
    (numberedLines text).map NumberedLine.content =
      (Text.lines text).map Line.parse := by
  unfold numberedLines
  generalize Text.lines text = raws
  rw [map_map]
  generalize 0 = k
  induction raws generalizing k with
  | nil => rfl
  | cons _ _ ih =>
    rw [zipIdx_cons, map_cons, map_cons, ih]
    simp only [Function.comp_apply]

/- What a text has to be for the assembler to take it. -/
theorem assemble_passes {text : String} {object : Object}
    (h : assemble .empty text = (known, .ok object)) :
    ∃ contents, (Text.lines text).map Line.parse = contents.map .ok ∧ Labelled known 0 contents ∧
        (∀ name, (∀ line ∈ contents, line.label ≠ some name) → known.lookup? name = none) ∧
        Encoded known contents object.bytes := by
  have hLines := numberedLines_contents text
  unfold assemble at h
  dsimp only at h
  split at h
  · cases h
  · next symbols hFirst =>
    rcases firstPass_labelled hFirst with ⟨_, contents, hContents, hLabelled, hOnly⟩
    split at h
    · cases h
    · next chunks hSecond =>
      cases h
      refine ⟨contents, ?_, hLabelled, hOnly, secondPass_encoded hContents hSecond⟩
      rw [← hLines]
      exact hContents

theorem encoded_append
    (hGoes : ∀ line ∈ before, line.statement ≠ .finish)
    (h : Encoded symbols (before ++ behind) bytes) :
    ∃ first second, bytes = first ++ second ∧
        Encoded symbols before first ∧ Encoded symbols behind second := by
  induction before generalizing bytes with
  | nil => exact ⟨[], bytes, rfl, .nil, h⟩
  | cons line _ ih =>
    cases h with
    | finish hFinish => exact absurd hFinish (hGoes line mem_cons_self)
    | line hLine hBytes hRest =>
      rcases ih (fun other hOther =>
        hGoes other (mem_cons_of_mem _ hOther)) hRest with
        ⟨_, second, rfl, hFirst, hSecond⟩
      exact ⟨_, second, (append_assoc ..).symm, .line hLine hBytes hFirst, hSecond⟩

/- Lines whose bytes are known one by one. -/
theorem encoded_map {α : Type} {line : α → Line} {bytesOf : α → List UInt8}
    {xs : List α}
    (hGoes : ∀ x ∈ xs, (line x).statement ≠ .finish)
    (hEach :
      ∀ x ∈ xs, ∀ bytes?, encode symbols (line x).statement = .ok bytes? →
        bytes?.getD [] = bytesOf x)
    (h : Encoded symbols (xs.map line) bytes) :
    bytes = xs.flatMap bytesOf ∧ ∀ x ∈ xs, (line x).statement.size = (bytesOf x).length := by
  induction xs generalizing bytes with
  | nil =>
    cases h
    exact ⟨rfl, nofun⟩
  | cons x _ ih =>
    cases h with
    | finish hFinish => exact absurd hFinish (hGoes x mem_cons_self)
    | line _ hBytes hRest =>
      have hFirst := hEach x mem_cons_self _ hBytes
      rcases ih (fun y hY => hGoes y (mem_cons_of_mem _ hY))
        (fun y hY => hEach y (mem_cons_of_mem _ hY)) hRest with ⟨rfl, hSizes⟩
      refine ⟨by rw [hFirst, flatMap_cons], ?_⟩
      intro y hY
      rcases mem_cons.mp hY with rfl | hY
      · rw [← encode_length hBytes, hFirst]
      · exact hSizes y hY

/- Lines without a label and a statement have no bytes. -/
theorem encoded_filter {lines : List Line}
    (h : Encoded symbols lines bytes) :
    Encoded symbols (lines.filter fun line => !line.isEmpty) bytes := by
  induction h with
  | nil => exact .nil
  | @finish line _ hFinish =>
    have hSome : line.isEmpty = false := by simp [Line.isEmpty, hFinish]
    rw [filter_cons, hSome]
    exact .finish hFinish
  | @line line _ _ _ hGoes hBytes _ ih =>
    rw [filter_cons]
    cases hEmpty : line.isEmpty with
    | false => exact .line hGoes hBytes ih
    | true =>
      cases Line.isEmpty_iff.mp hEmpty
      cases hBytes
      exact ih

/- Nor do they move the labels behind them. -/
theorem labelled_filter {lines : List Line}
    (h : Labelled symbols address lines) :
    Labelled symbols address (lines.filter fun line => !line.isEmpty) := by
  induction lines generalizing address with
  | nil => exact h
  | cons line _ ih =>
    rw [filter_cons]
    cases hEmpty : line.isEmpty with
    | false => exact ⟨h.1, ih h.2⟩
    | true =>
      cases Line.isEmpty_iff.mp hEmpty
      exact ih h.2

theorem labelled_append :
    Labelled symbols address (before ++ behind) ↔ Labelled symbols address before ∧
        Labelled symbols (address + (before.map fun l => l.statement.size).sum)
          behind := by
  induction before generalizing address with
  | nil => simp [Labelled]
  | cons _ _ ih =>
    rw [cons_append, Labelled, Labelled, ih, map_cons,
      sum_cons, Nat.add_assoc, and_assoc]

end Assembly

end Pep9
