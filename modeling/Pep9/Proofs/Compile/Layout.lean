import Pep9.Proofs.Compile.ControlFlow

/-
  Layouts of code. A layout tells for each instruction of a
  stream its level of the stack, and which functions stand in
  between. Each function has a chart of its own.

  Key theorems: `Segment.unique`, `Layout.segment`,
  `Layout.charted_island`, `Layout.exists_of_foreign`.
-/

namespace Pep9

open List
open Listing (Instruction)

variable {i : Instruction}

namespace Compile

/-
  The code of a function: from its label up to the landing
  label, to which the branch before the function goes.
-/
structure Segment (code : Code) (label : String) (first last : Nat) : Prop where
  starts : code[first]? = some (mark label)
  lands : ∃ landing before, first = before + 1 ∧ code[before]? = some (.jump .br landing) ∧
          code[last]? = some (mark landing)

/- A function has one segment. -/
theorem Segment.unique {code : Code} {label : String}
    {first last first' last' : Nat}
    (h : Segment code label first last)
    (h' : Segment code label first' last')
    (hLabels : (labels code).Nodup)
    (hTargets :
      ∀ i ∈ code, ∀ target, i.jumpsTo? = some target → target ≠ "")
    (hLabel : label ≠ "") :
    first = first' ∧ last = last' := by
  have hFirst : first = first' := place_unique hLabels h.starts h'.starts rfl hLabel
  refine ⟨hFirst, ?_⟩
  rcases h.lands with ⟨landing, before, _, hJump, hLast⟩
  rcases h'.lands with ⟨_, before', _, hJump', hLast'⟩
  have hSame : before' = before := by omega
  rw [hSame] at hJump'
  cases hJump.symm.trans hJump'
  have hSome : landing ≠ "" := hTargets _ (mem_of_getElem? hJump) landing rfl
  exact place_unique hLabels hLast hLast' rfl hSome

/- The bytes that the locals of a function take, if any. -/
def Signature.base (sig : Signature) : Int := max 0 sig.localsSize.toInt

/-
  A function with the chart of its segment. Nothing follows
  behind its last instruction.
-/
structure Island where
  sig : Signature
  label : String
  landing : String
  chart : Chart
  solid : ∀ p ∈ chart, p.1.isSome = true
  starts : chart[0]? = some (some 0, mark label)
  flows : Flows true sig.base [] chart none

variable {k : Nat}

namespace Island

def inner (f : Island) : Code := f.chart.map Prod.snd

def binding (f : Island) : Binding := ⟨f.sig.name, f.label, .label, .global⟩

/- What the stream around a function sees of it. -/
def around (f : Island) : Chart :=
  [(some 0, .jump .br f.landing)] ++ Chart.foreign f.inner ++ [(some 0, mark f.landing)]

/- The places that are left out are those of the segment. -/
theorem around_foreign {f : Island} :
    (∃ i, f.around[k]? = some (none, i)) ↔ 1 ≤ k ∧ k < 1 + f.inner.length := by
  have hLength : (Chart.foreign f.inner).length = f.inner.length := length_map _
  unfold around
  cases k with
  | zero => simp
  | succ k =>
    simp only [cons_append, nil_append, getElem?_cons_succ]
    by_cases hK : k < f.inner.length
    · rw [getElem?_append_left (hLength ▸ hK), Chart.foreign,
        getElem?_map, getElem?_eq_getElem hK]
      constructor
      · omega
      · intro _
        exact ⟨_, rfl⟩
    · rw [getElem?_append_right (by omega)]
      constructor
      · rintro ⟨_, hI⟩
        have hMem := mem_of_getElem? hI
        rw [mem_singleton] at hMem
        cases hMem
      · omega

end Island

/- An instruction of a stream, or a function in between. -/
inductive Piece where
  | own (depth : Int) (i : Instruction)
  | island (f : Island)

/- What the stream sees of a piece. -/
def Piece.chart : Piece → Chart
  | own depth i => [(some depth, i)]
  | island f => f.around

/- The function that a piece is, if it is one. -/
def Piece.island? : Piece → Option Island
  | own _ _ => none
  | island f => some f

/- The pieces of some code. -/
abbrev Layout : Type := List Piece

namespace Layout

def chart (layout : Layout) : Chart := layout.flatMap Piece.chart

/- The instructions of the layout, with those of its functions. -/
def code (layout : Layout) : Code := layout.chart.map Prod.snd

def islands (layout : Layout) : List Island := layout.filterMap Piece.island?

variable {first second layout before behind : Layout} {f : Island}

@[simp]
theorem chart_nil : chart [] = [] := rfl

@[simp]
theorem code_nil : code [] = [] := rfl

@[simp]
theorem islands_nil : islands [] = [] := rfl

@[simp]
theorem chart_append :
    chart (first ++ second) = first.chart ++ second.chart := by
  simp [chart]

@[simp]
theorem chart_cons
    (p : Piece)
    (rest : Layout) :
    chart (p :: rest) = p.chart ++ rest.chart := by
  simp [chart]

@[simp]
theorem code_append : code (first ++ second) = first.code ++ second.code := by
  simp [code]

@[simp]
theorem islands_append :
    islands (first ++ second) = first.islands ++ second.islands := by
  simp [islands]

theorem mem_islands : f ∈ layout.islands ↔ .island f ∈ layout := by
  constructor
  · intro hF
    rcases mem_filterMap.mp hF with ⟨p, hP, hEq⟩
    cases p with
    | own => cases hEq
    | island =>
      cases hEq
      exact hP
  · intro hF
    exact mem_filterMap.mpr ⟨.island f, hF, rfl⟩

theorem code_island :
    code (before ++ .island f :: behind) =
      (before.code ++ [.jump .br f.landing]) ++ f.inner ++ (mark f.landing :: behind.code) := by
  have hForeign : (Chart.foreign f.inner).map Prod.snd = f.inner := by
    unfold Chart.foreign
    rw [map_map]
    exact map_id _
  simp [code, Piece.chart, Island.around, hForeign]

theorem code_single (f : Island) :
    code [.island f] =
      [.jump .br f.landing] ++ f.inner ++ [mark f.landing] := by
  have hCode : code ([] ++ .island f :: []) = (code [] ++ [.jump .br f.landing]) ++ f.inner
          ++ (mark f.landing :: code []) := code_island
  exact hCode

theorem segment :
    Segment (code (before ++ .island f :: behind)) f.label (before.code.length + 1)
      (before.code.length + 1 + f.inner.length) := by
  have hInner : f.inner[0]? = some (mark f.label) := by
    rw [Island.inner, getElem?_map, f.starts]
    rfl
  rw [code_island]
  refine ⟨?_, f.landing, before.code.length, rfl, ?_, ?_⟩
  · rw [append_assoc, getElem?_append_right (by simp)]
    simp only [length_append, length_singleton, Nat.sub_self]
    rw [getElem?_append_left ?_, hInner]
    exact (List.getElem?_eq_some_iff.mp hInner).1
  · simp
  · have hLength : before.code.length + 1 + f.inner.length =
          (before.code ++ [Instruction.jump .br f.landing] ++ f.inner).length := by
      simp only [length_append, length_singleton]
    rw [hLength, getElem?_append_right (Nat.le_refl _), Nat.sub_self]
    rfl

/- The chart of a function in the code around it. -/
theorem charted_island
    (hLabels : (labels (code (before ++ .island f :: behind))).Nodup)
    (hTargets :
      ∀ i ∈ code (before ++ .island f :: behind),
        ∀ target, i.jumpsTo? = some target → target ≠ "") :
    Charted (code (before ++ .island f :: behind)) true f.sig.base
      (Chart.foreign (before.code ++ [.jump .br f.landing]) ++ f.chart
        ++ Chart.foreign (mark f.landing :: behind.code)) where
  code_eq := by
    rw [code_island]
    simp [Chart.foreign, Island.inner, Function.comp_def]
  labels := hLabels
  targets := hTargets
  flows := .append (.append (.foreign _) f.flows) (.foreign _)

/- A function that is left out has a place in the layout. -/
theorem exists_of_foreign (h : layout.chart[k]? = some (none, i)) :
    ∃ (before : Layout) (f : Island) (behind : Layout), layout = before ++ .island f :: behind ∧
        before.code.length + 1 ≤ k ∧ k < before.code.length + 1 + f.inner.length := by
  induction layout generalizing k with
  | nil => cases h
  | cons p rest ih =>
    rw [chart_cons] at h
    by_cases hK : k < p.chart.length
    · rw [getElem?_append_left hK] at h
      cases p with
      | own =>
        have hMem := mem_of_getElem? h
        rw [Piece.chart, mem_singleton] at hMem
        cases hMem
      | island f =>
        rcases f.around_foreign.mp ⟨i, h⟩ with ⟨_, _⟩
        refine ⟨[], f, rest, rfl, ?_, ?_⟩
        · rwa [code_nil, length_nil, Nat.zero_add]
        · rwa [code_nil, length_nil, Nat.zero_add]
    · rw [Nat.not_lt] at hK
      rw [getElem?_append_right hK] at h
      rcases ih h with ⟨before, f, behind, rfl, _, _⟩
      have hLength : (code (p :: before)).length = p.chart.length + before.code.length := by
        simp [code]
      refine ⟨p :: before, f, behind, rfl, ?_, ?_⟩
      · omega
      · omega

/- The stream has no level in a function. -/
theorem foreign_of_island
    (hLow : before.code.length + 1 ≤ k)
    (hHigh : k < before.code.length + 1 + f.inner.length) :
    ∃ i, (chart (before ++ .island f :: behind))[k]? = some (none, i) := by
  have hLength : before.code.length = before.chart.length := by simp [code]
  rcases f.around_foreign.mpr (⟨by omega, by omega⟩ : 1 ≤ k - before.chart.length ∧
        k - before.chart.length < 1 + f.inner.length) with ⟨i, hI⟩
  have hPiece : (Piece.island f).chart = f.around := rfl
  refine ⟨i, ?_⟩
  rw [chart_append, chart_cons, hPiece, getElem?_append_right (by omega),
    getElem?_append_left (List.getElem?_eq_some_iff.mp hI).1]
  exact hI

theorem length_island :
    (code (before ++ .island f :: behind)).length =
      before.code.length + 1 + f.inner.length + 1 + behind.code.length := by
  rw [code_island]
  simp only [length_append, length_cons, length_nil]
  omega

/- Of two functions in a layout one comes first. -/
theorem le_of_islands {before' behind' : Layout} {f' : Island}
    (h : before ++ .island f :: behind = before' ++ .island f' :: behind') :
    f = f' ∨
      before.code.length + 1 + f.inner.length < before'.code.length + 1 ∨
      before'.code.length + 1 + f'.inner.length < before.code.length + 1 := by
  rcases append_eq_append_iff.mp h with ⟨more, hMore, hRest⟩ | ⟨more, hMore, hRest⟩
  · cases more with
    | nil =>
      cases hRest
      exact .inl rfl
    | cons =>
      cases hRest
      rw [hMore, length_island]
      omega
  · cases more with
    | nil =>
      cases hRest
      exact .inl rfl
    | cons =>
      cases hRest
      rw [hMore, length_island]
      omega

/- Each instruction has a level in the stream or in a function. -/
theorem mem_code (h : i ∈ layout.code) :
    (∃ d, (some d, i) ∈ layout.chart) ∨
      ∃ f ∈ layout.islands, ∃ d, (some d, i) ∈ f.chart := by
  rcases mem_map.mp h with ⟨⟨level, j⟩, hMem, rfl⟩
  cases level with
  | some d => exact .inl ⟨d, hMem⟩
  | none =>
    rcases mem_flatMap.mp hMem with ⟨p, hP, hHere⟩
    cases p with
    | own =>
      rw [Piece.chart, mem_singleton] at hHere
      cases hHere
    | island f =>
      refine .inr ⟨f, mem_islands.mpr hP, ?_⟩
      have hInner : j ∈ f.inner := by
        simpa [Piece.chart, Island.around, Chart.foreign] using hHere
      rcases mem_map.mp hInner with ⟨⟨_, _⟩, hI, rfl⟩
      rcases Option.isSome_iff_exists.mp (f.solid _ hI) with ⟨d, hD⟩
      cases hD
      exact ⟨d, hI⟩

end Layout

end Compile

end Pep9
