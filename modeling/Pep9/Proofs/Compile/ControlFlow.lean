import Pep9.Proofs.Compile.Scopes

/-
  Paths of control through code, and the bytes that they take
  from the stack. A chart gives a level of the stack to each
  instruction of one stream of code and none to all others; if
  its levels fit together locally, they are those of all paths.

  Key theorems: `Flows.append`, `Charted.path`,
  `Charted.stream`.
-/

namespace Pep9

open List
open Isa (Mnemonic)
open Listing (Instruction)

variable {i : Instruction} {target : String}

namespace Listing.Instruction

/- Whether control may go on behind an instruction. -/
def fallsThrough (i : Instruction) : Bool :=
  match i.op with
  | .known .br => false
  | .known .ret => false
  | .known .rettr => false
  | .known .stop => false
  | _ => true

/- The label that control may go to. A call comes back. -/
def jumpsTo? (i : Instruction) : Option String :=
  match i.op, i.operand with
  | .known m, .symbol target => if m.form = .branch ∧ m ≠ .call then some target else none
  | _, _ => none

/- By how many bytes the stack pointer is moved down. -/
def sinks (i : Instruction) : Int :=
  match i.op, i.operand with
  | .known .subsp, .number bytes => bytes.toInt
  | .known .addsp, .number bytes => -bytes.toInt
  | _, _ => 0

theorem jumpsTo?_eq_some (h : i.jumpsTo? = some target) :
    ∃ m, i.op = .known m ∧ i.operand = .symbol target ∧ m.form = .branch ∧ m ≠ .call := by
  unfold jumpsTo? at h
  split at h
  · next m name hOp hOperand =>
    split at h
    · next hBranch =>
      cases h
      exact ⟨m, hOp, hOperand, hBranch⟩
    · cases h
  · cases h

theorem sinks_of_ne {m : Mnemonic}
    (hOp : i.op = .known m)
    (hSub : m ≠ .subsp)
    (hAdd : m ≠ .addsp) :
    i.sinks = 0 := by
  unfold sinks
  rw [hOp]
  split
  · next hEq _ =>
    cases hEq
    exact absurd rfl hSub
  · next hEq _ =>
    cases hEq
    exact absurd rfl hAdd
  · rfl

theorem sinks_of_jump (h : i.jumpsTo? = some target) : i.sinks = 0 := by
  rcases jumpsTo?_eq_some h with ⟨_, hOp, _, hForm, _⟩
  refine sinks_of_ne hOp ?_ ?_
  · rintro rfl
    cases hForm
  · rintro rfl
    cases hForm

end Listing.Instruction

namespace Compile

/- Where control may go from an instruction. -/
inductive Goes (code : Code) : Nat → Nat → Prop where
  | next {k : Nat} {i : Instruction} (hAt : code[k]? = some i) (hFalls : i.fallsThrough = true) :
      Goes code k (k + 1)
  | branch {k n : Nat} {i j : Instruction} {target : String} (hAt : code[k]? = some i)
      (hJump : i.jumpsTo? = some target) (hGoal : code[n]? = some j) (hLabel : j.label = target) :
      Goes code k n

/- A path, with the bytes that it has taken from the stack. -/
inductive Path (code : Code) (start : Nat) : Nat → Int → Prop where
  | start : Path code start start 0
  | step {k n : Nat} {d : Int} {i : Instruction} (hPath : Path code start k d)
      (hAt : code[k]? = some i) (hGoes : Goes code k n) : Path code start n (d + i.sinks)

/-
  A part of some code that control does not leave. It ends in
  a `STOP` or, in a function, in a `RET`. All paths to an
  instruction have taken the same bytes from the stack: none
  at a `RET`, and all those of the locals where a place of a
  frame or the stack pointer itself is used. Outside of
  functions nothing of that kind is used.
-/
structure Stream (code : Code) (frames : List String) (inside : Nat → Prop)
    (start : Nat) (locals : Option Int64) : Prop where
  begins : inside start
  stays : ∀ k n, inside k → Goes code k n → inside n
  lands : ∀ (k : Nat) (i : Instruction) (target : String),
      inside k → code[k]? = some i → i.jumpsTo? = some target → ∃ (n : Nat) (j : Instruction),
          code[n]? = some j ∧ j.label = target
  ends : ∀ k, inside k → (∃ n, Goes code k n) ∨ ∃ i, code[k]? = some i ∧ (i.op = .known .stop ∨
            i.op = .known .ret ∧ locals.isSome = true)
  level : ∀ k d d', Path code start k d → Path code start k d' → d' = d
  nonneg : ∀ k d, Path code start k d → 0 ≤ d
  returns : ∀ k d i, Path code start k d → code[k]? = some i → i.op = .known .ret → d = 0
  framed : ∀ k d i, Path code start k d → code[k]? = some i → (i.op = .known .movspa ∨
        ∃ name ∈ frames, i.operand = .symbol name) →
          ∃ size, locals = some size ∧ d = max 0 size.toInt

/-
  What an instruction may be at some level of the stack, in a
  stream whose locals reach up to `base`.
-/
structure Sound (inside : Bool) (base depth : Int) (i : Instruction) : Prop where
  nonneg : 0 ≤ depth
  ends : i.fallsThrough = true ∨ (∃ target, i.jumpsTo? = some target) ∨
      i.op = .known .stop ∨ i.op = .known .ret
  returns : i.op = .known .ret → inside = true ∧ depth = 0
  pointer : i.op = .known .movspa → inside = true ∧ depth = base
  symbol : ∀ m name, i.op = .known m → i.operand = .symbol name → m.form ≠ .branch → depth = base
  moves : i.op = .known .subsp ∨ i.op = .known .addsp →
      ∃ bytes, i.operand = .number bytes ∧ i.mode = .immediate

/- Instructions with their levels, if they have one. -/
abbrev Chart : Type := List (Option Int × Instruction)

/- The level at the start of a chart, before another level. -/
def Chart.entry (last : Option Int) : Chart → Option Int
  | [] => last
  | (level, _) :: _ => level

/- Each level is that behind the instruction before it. -/
def Chart.Linked (last : Option Int) : Chart → Prop
  | [] => True
  | (level, i) :: rest =>
    (∀ d, level = some d → i.fallsThrough = true → Chart.entry last rest = some (d + i.sinks)) ∧
    Linked last rest

/-
  A chart whose levels fit together. Control branches only at
  the level of the locals, to labels of the chart at the same
  level or to some labels elsewhere.
-/
structure Flows (inside : Bool) (base : Int) (outer : List String)
    (chart : Chart) (last : Option Int) : Prop where
  linked : chart.Linked last
  jump : ∀ d i target, (some d, i) ∈ chart → i.jumpsTo? = some target → d = base ∧
        ((∃ j, (some base, j) ∈ chart ∧ j.label = target) ∨ target ∈ outer)
  sound : ∀ d i, (some d, i) ∈ chart → Sound inside base d i

namespace Chart

variable {first second : Chart} {last : Option Int} {chart : Chart} {d : Int} {k : Nat}

@[simp]
theorem entry_append :
    (first ++ second).entry last = first.entry (second.entry last) := by
  cases first with
  | nil | cons => rfl

theorem linked_append :
    (first ++ second).Linked last ↔
      first.Linked (second.entry last) ∧ second.Linked last := by
  induction first with
  | nil => simp [Linked]
  | cons _ _ ih => rw [cons_append, Linked, Linked, ih, entry_append, and_assoc]

theorem Linked.next
    (h : chart.Linked last)
    (hAt : chart[k]? = some (some d, i))
    (hFalls : i.fallsThrough = true) :
    Chart.entry last (chart.drop (k + 1)) = some (d + i.sinks) := by
  induction chart generalizing k with
  | nil => cases hAt
  | cons _ _ ih =>
    cases k with
    | zero =>
      cases hAt
      exact h.1 d rfl hFalls
    | succ => exact ih h.2 hAt

/- A level at the start is that of the first instruction. -/
theorem exists_of_entry (h : chart.entry none = some d) :
    ∃ i, chart[0]? = some (some d, i) := by
  cases chart with
  | nil => cases h
  | cons p =>
    rcases p with ⟨_, i⟩
    cases h
    exact ⟨i, rfl⟩

/- The code of another stream. -/
def foreign (code : Code) : Chart := code.map fun i => (none, i)

theorem foreign_linked
    (code : Code)
    (last : Option Int) :
    (foreign code).Linked last := by
  induction code with
  | nil => trivial
  | cons _ _ ih =>
    refine ⟨?_, ih⟩
    intro _ hD
    cases hD

theorem length_foreign (code : Code) :
    (foreign code).length = code.length := length_map _

theorem not_mem_foreign {code : Code} : (some d, i) ∉ foreign code := by
  intro hMem
  rcases mem_map.mp hMem with ⟨_, _, hEq⟩
  cases hEq

/- The places between the code of other streams. -/
theorem between_foreign {before behind : Code}
    (hSolid : ∀ p ∈ chart, p.1.isSome = true) :
    (before.length ≤ k ∧ k < before.length + chart.length) ↔
      ∃ d i, (foreign before ++ chart ++ foreign behind)[k]? = some (some d, i) := by
  have hBefore := length_foreign before
  rw [append_assoc]
  by_cases hLow : k < before.length
  · rw [getElem?_append_left (by omega)]
    constructor
    · intro _
      omega
    · rintro ⟨_, _, hAt⟩
      exact absurd (mem_of_getElem? hAt) not_mem_foreign
  · rw [getElem?_append_right (by omega), hBefore]
    by_cases hHigh : k - before.length < chart.length
    · rw [getElem?_append_left hHigh, getElem?_eq_getElem hHigh]
      constructor
      · intro _
        rcases hEntry : chart[k - before.length] with ⟨_, i⟩
        have hLevel := hSolid _ (getElem_mem hHigh)
        rw [hEntry] at hLevel
        rcases Option.isSome_iff_exists.mp hLevel with ⟨d, hD⟩
        exact ⟨d, i, by rw [← hD]⟩
      · intro _
        omega
    · rw [getElem?_append_right (by omega)]
      constructor
      · intro _
        omega
      · rintro ⟨_, _, hAt⟩
        exact absurd (mem_of_getElem? hAt) not_mem_foreign

end Chart

namespace Flows

variable {inside : Bool} {base : Int} {outer : List String}
  {first second chart : Chart} {last : Option Int}

theorem nil : Flows inside base outer [] last where
  linked := trivial
  jump := by
    intro _ _ _ hMem
    cases hMem
  sound := by
    intro _ _ hMem
    cases hMem

theorem foreign (code : Code) :
    Flows inside base outer (Chart.foreign code) last where
  linked := Chart.foreign_linked code last
  jump := fun _ _ _ hMem => absurd hMem Chart.not_mem_foreign
  sound := fun _ _ hMem => absurd hMem Chart.not_mem_foreign

theorem append
    (hFirst : Flows inside base outer first (second.entry last))
    (hSecond : Flows inside base outer second last) :
    Flows inside base outer (first ++ second) last where
  linked := Chart.linked_append.mpr ⟨hFirst.linked, hSecond.linked⟩
  jump := by
    intro d i target hMem hJump
    rcases mem_append.mp hMem with hMem | hMem
    · rcases hFirst.jump d i target hMem hJump with ⟨hBase, ⟨j, hJ, hLabel⟩ | hOuter⟩
      · exact ⟨hBase, .inl ⟨j, mem_append_left _ hJ, hLabel⟩⟩
      · exact ⟨hBase, .inr hOuter⟩
    · rcases hSecond.jump d i target hMem hJump with ⟨hBase, ⟨j, hJ, hLabel⟩ | hOuter⟩
      · exact ⟨hBase, .inl ⟨j, mem_append_right _ hJ, hLabel⟩⟩
      · exact ⟨hBase, .inr hOuter⟩
  sound := by
    intro d i hMem
    rcases mem_append.mp hMem with hMem | hMem
    · exact hFirst.sound d i hMem
    · exact hSecond.sound d i hMem

/- A chart may stand where there are more labels. -/
theorem widen
    (h : Flows inside base [] chart last)
    (outer : List String) :
    Flows inside base outer chart last where
  linked := h.linked
  jump := by
    intro d i target hMem hJump
    rcases h.jump d i target hMem hJump with ⟨hBase, hIn | hOuter⟩
    · exact ⟨hBase, .inl hIn⟩
    · cases hOuter
  sound := h.sound

variable (h : Flows inside base outer chart last)
include h

/- All labels that are branched to are in the chart. -/
theorem close
    (hOuter :
      ∀ target ∈ outer, ∃ j, (some base, j) ∈ chart ∧ j.label = target) :
    Flows inside base [] chart last where
  linked := h.linked
  jump := by
    intro d i target hMem hJump
    rcases h.jump d i target hMem hJump with ⟨hBase, hIn | hMore⟩
    · exact ⟨hBase, .inl hIn⟩
    · exact ⟨hBase, .inl (hOuter target hMore)⟩
  sound := h.sound

/- The level behind a chart matters only if control gets there. -/
theorem relink {other : Option Int}
    (hLinked : chart.Linked other) :
    Flows inside base outer chart other :=
  ⟨hLinked, h.jump, h.sound⟩

end Flows

------------------------------------------------------------
-- Charts of Whole Programs
------------------------------------------------------------

/- A label stands at one place. -/
theorem place_unique {code : Code} {k n : Nat} {j : Instruction}
    (hLabels : (labels code).Nodup)
    (hI : code[k]? = some i)
    (hJ : code[n]? = some j)
    (hLabel : i.label = j.label)
    (hSome : i.label ≠ "") :
    k = n := by
  induction code generalizing k n with
  | nil => cases hI
  | cons head rest ih =>
    rw [labels_cons] at hLabels
    have hRest := (nodup_append.mp hLabels).2.1
    -- The label at the start is not found behind it.
    have hHead : ∀ (m : Nat) (other : Instruction), rest[m]? = some other →
          head.label = other.label → head.label ≠ "" → False := by
      intro _ other hOther hSame hNonempty
      have hMem : head.label ∈ labels rest :=
        mem_labels.mpr ⟨hNonempty, other, mem_of_getElem? hOther, hSame.symm⟩
      rw [if_neg hNonempty] at hLabels
      exact (nodup_append.mp hLabels).2.2 _ mem_cons_self _ hMem rfl
    cases k with
    | zero =>
      cases hI
      cases n with
      | zero => rfl
      | succ n => exact (hHead n j hJ hLabel hSome).elim
    | succ k =>
      cases n with
      | zero =>
        cases hJ
        exact (hHead k i hI hLabel.symm (hLabel ▸ hSome)).elim
      | succ => exact congrArg (· + 1) (ih hRest hI hJ)

/-
  The chart of a whole program for one of its streams. Behind
  the last instruction there is none to go on with.
-/
structure Charted (code : Code) (inside : Bool) (base : Int) (chart : Chart) : Prop where
  code_eq : chart.map Prod.snd = code
  labels : (labels code).Nodup
  targets : ∀ i ∈ code, ∀ target, i.jumpsTo? = some target → target ≠ ""
  flows : Flows inside base [] chart none

namespace Charted

variable {code : Code} {inside : Bool} {base : Int} {chart : Chart}
  {k n start : Nat} {d : Int} {first : Instruction}

section

variable (h : Charted code inside base chart)
include h

theorem at_code {level : Option Int}
    (hAt : chart[k]? = some (level, i)) :
    code[k]? = some i := by
  rw [← h.code_eq, getElem?_map, hAt]
  rfl

theorem goes
    (hAt : chart[k]? = some (some d, i))
    (hGoes : Goes code k n) :
    ∃ j, chart[n]? = some (some (d + i.sinks), j) := by
  cases hGoes with
  | next hHere hFalls =>
    cases (h.at_code hAt).symm.trans hHere
    rcases Chart.exists_of_entry (h.flows.linked.next hAt hFalls) with ⟨j, hJ⟩
    rw [getElem?_drop, Nat.add_zero] at hJ
    exact ⟨j, hJ⟩
  | branch hHere hJump hGoal hLabel =>
    cases (h.at_code hAt).symm.trans hHere
    have hMem := mem_of_getElem? hAt
    rcases h.flows.jump d i _ hMem hJump with ⟨hBase, ⟨j, hJ, hSame⟩ | hNone⟩
    · rcases mem_iff_getElem?.mp hJ with ⟨m, hM⟩
      -- The label is found only where the chart has it.
      have hSome := h.targets i (mem_of_getElem? hHere) _ hJump
      have hPlace : m = n :=
        place_unique h.labels (h.at_code hM) hGoal (hSame.trans hLabel.symm) (hSame ▸ hSome)
      rw [Instruction.sinks_of_jump hJump, Int.add_zero, hBase]
      exact ⟨j, hPlace ▸ hM⟩
    · cases hNone

/- All paths have taken the bytes that the chart tells. -/
theorem path
    (hStart : chart[start]? = some (some 0, first))
    (hPath : Path code start k d) :
    ∃ i, chart[k]? = some (some d, i) := by
  induction hPath with
  | start => exact ⟨first, hStart⟩
  | step _ hAt hGoes ih =>
    rcases ih with ⟨_, hI⟩
    cases (h.at_code hI).symm.trans hAt
    exact h.goes hI hGoes

theorem lands
    (hAt : chart[k]? = some (some d, i))
    (hJump : i.jumpsTo? = some target) :
    ∃ (n : Nat) (j : Instruction), code[n]? = some j ∧ j.label = target := by
  rcases (h.flows.jump d i target (mem_of_getElem? hAt) hJump).2 with ⟨j, hJ, hLabel⟩ | hNone
  · rcases mem_iff_getElem?.mp hJ with ⟨n, hN⟩
    exact ⟨n, j, h.at_code hN, hLabel⟩
  · cases hNone

end

/- Code with a chart is a stream from its start. -/
theorem stream {frames : List String} {within : Nat → Prop}
    {locals : Option Int64}
    (h : Charted code locals.isSome base chart)
    (hStart : chart[start]? = some (some 0, first))
    (hBase : ∀ size, locals = some size → base = max 0 size.toInt)
    (hWithin : ∀ k, within k ↔ ∃ d i, chart[k]? = some (some d, i))
    (hFrames :
      ∀ (k : Nat) (d : Int) (i : Instruction), chart[k]? = some (some d, i) →
          ∀ name ∈ frames, i.operand = .symbol name → locals.isSome = true ∧
              ∃ m, i.op = .known m ∧ m.form ≠ .branch) :
    Stream code frames within start locals := by
  have hSound : ∀ k d i, Path code start k d → code[k]? = some i →
        chart[k]? = some (some d, i) ∧ Sound locals.isSome base d i := by
    intro _ d i hPath hAt
    rcases h.path hStart hPath with ⟨_, hJ⟩
    cases (h.at_code hJ).symm.trans hAt
    exact ⟨hJ, h.flows.sound d i (mem_of_getElem? hJ)⟩
  -- Where there are locals, their bytes are the level of the stream.
  have hLocals : locals.isSome = true → ∃ size, locals = some size ∧ base = max 0 size.toInt := by
    intro hSome
    rcases Option.isSome_iff_exists.mp hSome with ⟨size, hSize⟩
    exact ⟨size, hSize, hBase size hSize⟩
  refine {
    begins := (hWithin start).mpr ⟨0, first, hStart⟩
    stays := ?_
    lands := ?_
    ends := ?_
    level := ?_
    nonneg := ?_
    returns := ?_
    framed := ?_ }
  · intro k n hK hGoes
    rcases (hWithin k).mp hK with ⟨_, _, hAt⟩
    rcases h.goes hAt hGoes with ⟨j, hJ⟩
    exact (hWithin n).mpr ⟨_, j, hJ⟩
  · intro k _ _ hK hAt hJump
    rcases (hWithin k).mp hK with ⟨_, _, hEntry⟩
    cases (h.at_code hEntry).symm.trans hAt
    exact h.lands hEntry hJump
  · intro k hK
    rcases (hWithin k).mp hK with ⟨d, i, hEntry⟩
    have hAt := h.at_code hEntry
    have hHere := h.flows.sound d i (mem_of_getElem? hEntry)
    rcases hHere.ends with hFalls | ⟨_, hJump⟩ | hStop | hRet
    · exact .inl ⟨k + 1, .next hAt hFalls⟩
    · rcases h.lands hEntry hJump with ⟨n, _, hGoal, hLabel⟩
      exact .inl ⟨n, .branch hAt hJump hGoal hLabel⟩
    · exact .inr ⟨i, hAt, .inl hStop⟩
    · exact .inr ⟨i, hAt, .inr ⟨hRet, (hHere.returns hRet).1⟩⟩
  · intro _ _ _ hPath hPath'
    rcases h.path hStart hPath with ⟨_, hI⟩
    rcases h.path hStart hPath' with ⟨_, hI'⟩
    cases hI.symm.trans hI'
    rfl
  · intro _ d hPath
    rcases h.path hStart hPath with ⟨i, hI⟩
    exact (h.flows.sound d i (mem_of_getElem? hI)).nonneg
  · intro k d i hPath hAt hRet
    exact ((hSound k d i hPath hAt).2.returns hRet).2
  · intro k d i hPath hAt hUse
    rcases hSound k d i hPath hAt with ⟨hEntry, hHere⟩
    rcases hUse with hPointer | ⟨name, hName, hOperand⟩
    · rcases hHere.pointer hPointer with ⟨hSome, hDepth⟩
      rw [hDepth]
      exact hLocals hSome
    · rcases hFrames k d i hEntry name hName hOperand with ⟨hSome, m, hOp, hForm⟩
      rw [hHere.symbol m name hOp hOperand hForm]
      exact hLocals hSome

end Charted

end Compile

end Pep9
