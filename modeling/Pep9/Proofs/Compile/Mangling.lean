import Pep9.Compile.Allocation
import Pep9.Proofs.Compile.Supply

/-
  How a name is made a target. A target is what is kept of the
  name, or differs from it in one letter; the search for it
  fails only when there is no such text that is not in use.

  Key theorems: `mem_variants`, `Demand.answer_eq`,
  `Demand.answer_complete`.
-/

namespace Pep9

open List

namespace Compile

/- Some letter after a character is any letter. -/
theorem exists_letterAfter
    (c : Char)
    {letter : Char}
    (h : letter.isLower = true) :
    ∃ i < 26, SymbolTable.letterAfter c (i + 1) = letter := by
  have hCode := Script.isLower_iff.mp h
  refine ⟨(((letter.toNat : Int) - c.toNat - 1) % 26).toNat, by omega, ?_⟩
  unfold SymbolTable.letterAfter
  have hPlace : 97 + (((c.toNat : Int) - 97 + ((((letter.toNat : Int) - c.toNat - 1) %
        26).toNat + 1 : Nat)) % 26).toNat = letter.toNat := by
    omega
  rw [hPlace, Char.ofNat_toNat]

/- A text with another character at a position. -/
def replaced (window : String) (p : Nat) (letter : Char) : String :=
  String.ofList (window.toList.set p letter)

/- The variants have all letters at all positions. -/
theorem mem_variants {window target : String} {positions : List Nat} :
    target ∈ SymbolTable.variants window positions ↔
      ∃ p ∈ positions, ∃ letter, letter.isLower = true ∧ target = replaced window p letter := by
  simp only [SymbolTable.variants, mem_flatMap, mem_map, mem_range,
    modify_eq_set]
  constructor
  · rintro ⟨p, hP, i, _, rfl⟩
    exact ⟨p, hP, _, isLower_letterAfter _ _, rfl⟩
  · rintro ⟨p, hP, letter, hLower, rfl⟩
    rcases exists_letterAfter (window.toList[p]?.getD default) hLower with ⟨i, hI, hLetter⟩
    refine ⟨p, hP, i, hI, ?_⟩
    rw [hLetter]
    rfl

/- A name that is asked for: everywhere, or in a function. -/
inductive Demand where
  | everywhere (kind : SymbolKind) (name : String)
  | inside (owner name : String)

namespace Demand

def answer (t : SymbolTable) : Demand → Except Error (String × SymbolTable)
  | everywhere kind name => t.bindGlobal kind name
  | inside owner name => t.bindLocal name owner

def name : Demand → String
  | everywhere _ name | inside _ name => name

def kind : Demand → SymbolKind
  | everywhere kind _ => kind
  | inside _ _ => .data

def scope : Demand → Scope
  | everywhere _ _ => .global
  | inside owner _ => .local owner

def isArray (d : Demand) : Bool := d.kind = .data && isArrayName d.name

/- What stands before the name: the owner of a local is shown. -/
def start : Demand → String
  | everywhere _ _ => ""
  | inside owner _ => String.ofList (owner.toList.take 2) ++ "_"

/- How many characters of the name are kept. -/
def limit : Demand → Nat
  | everywhere _ _ => 8
  | inside _ _ => 5

/- The last characters of an array, and the first of all else. -/
def window (d : Demand) : String :=
  d.start ++ String.ofList
    (if d.isArray then
      d.name.toList.drop (d.name.length - d.limit)
    else
      d.name.toList.take d.limit)

/- The name is not bound yet in its scope. -/
def IsNew (d : Demand) (t : SymbolTable) : Prop :=
  ∀ b, (t.bindings d.kind).find d.name = some b → b.scope ≠ d.scope

/- A position of the name, but not the end of an array. -/
def Permits (d : Demand) (p : Nat) : Prop :=
  d.start.length ≤ p ∧ p + d.isArray.toNat < d.window.length

/- All texts that could be the target are in use. -/
def Exhausted (d : Demand) (t : SymbolTable) : Prop :=
  t.inUse d.window = true ∧ ∀ p letter, d.Permits p → letter.isLower = true →
      t.inUse (replaced d.window p letter) = true

/- The window if it is free, or a text with another letter. -/
def Gives (d : Demand) (t : SymbolTable) (target : String) : Prop :=
  t.inUse target = false ∧ (target = d.window ∨ t.inUse d.window = true ∧ ∃ p letter,
      d.Permits p ∧ letter.isLower = true ∧ d.window.toList[p]? ≠ some letter ∧
        target = replaced d.window p letter)

/-
  An allocation that meets the name stops with an error and
  the table that it had.
-/
def Stops (t : SymbolTable) (e : Error) : Demand → Prop
  | everywhere .data name =>
    ∀ storage rest, allocateGlobals t (⟨name, storage⟩ :: rest) = (t, .error e)
  | everywhere .label _ => True
  | inside owner name =>
    ∀ offset special rest, bindSlots owner t (⟨name, name, offset, special⟩ :: rest) =
      ⟨t, [], some e⟩

variable {d : Demand} {t t' : SymbolTable} {e : Error} {target : String}

theorem window_eq (d : Demand) :
    d.window = d.start ++ SymbolTable.window d.limit d.isArray d.name := by
  unfold window SymbolTable.window
  split
  · rfl
  · rfl

def places (d : Demand) : List Nat :=
  SymbolTable.positions d.window.length d.isArray d.start.length

/- A name that is not bound gets the first free target. -/
theorem answer_of_new (h : d.IsNew t) :
    d.answer t =
      t.bindFree d.window d.places fun target => ⟨d.name, target, d.kind, d.scope⟩ := by
  cases d with
  | everywhere kind name =>
    have hWindow : (everywhere kind name).window = globalWindow kind name :=
      (window_eq _).trans String.empty_append
    unfold places
    rw [hWindow]
    exact SymbolTable.bindGlobal_of_new h
  | inside =>
    rw [places, window_eq]
    exact SymbolTable.bindLocalAs_of_new h

/- The search fails when nothing that it looks at is free. -/
theorem answer_eq_error (h : d.IsNew t) :
    (∃ e, d.answer t = .error e) ↔ d.Exhausted t := by
  rw [answer_of_new h]
  unfold SymbolTable.bindFree SymbolTable.freeTarget
  cases hUsed : t.inUse d.window with
  | false =>
    rw [if_neg Bool.false_ne_true]
    exact ⟨nofun, fun hNone => absurd hNone.1 (by rw [hUsed]; decide)⟩
  | true =>
    rw [if_pos rfl]
    cases hFound : (SymbolTable.variants d.window d.places).find? fun s => !t.inUse s with
    | none =>
      refine ⟨fun _ => ⟨hUsed, fun p letter hPermits hLower => ?_⟩, fun _ => ⟨_, rfl⟩⟩
      have hVariant : replaced d.window p letter ∈ SymbolTable.variants d.window d.places :=
        mem_variants.mpr ⟨p, mem_positions.mpr hPermits, letter, hLower, rfl⟩
      simpa using find?_eq_none.mp hFound _ hVariant
    | some target =>
      refine ⟨nofun, fun hNone => ?_⟩
      have hFree := find?_some hFound
      rcases mem_variants.mp (mem_of_find?_eq_some hFound) with ⟨p, hP, letter, hLower, rfl⟩
      rw [hNone.2 p letter (mem_positions.mp hP) hLower] at hFree
      cases hFree

/- A window that is free is the target. -/
theorem answer_of_free
    (h : d.IsNew t)
    (hFree : t.inUse d.window = false) :
    d.answer t = .ok (d.window, t.bind ⟨d.name, d.window, d.kind, d.scope⟩) := by
  rw [answer_of_new h]
  unfold SymbolTable.bindFree SymbolTable.freeTarget
  rw [hFree]
  rfl

/- A variant that is not the window differs from it. -/
theorem gives_of_variant
    (hVariant : Variant d.window d.places target)
    (hFree : t.inUse target = false)
    (hUsed : t.inUse d.window = true) :
    d.Gives t target := by
  rcases hVariant with rfl | ⟨p, hP, n, hChars⟩
  · exact ⟨hFree, .inl rfl⟩
  · rw [modify_eq_set] at hChars
    have hTarget : target = replaced d.window p _ := String.toList_inj.mp
      (hChars.trans String.toList_ofList.symm)
    refine ⟨hFree, .inr ⟨hUsed, p, _, mem_positions.mp hP, isLower_letterAfter _ _, ?_, hTarget⟩⟩
    intro hSame
    rcases List.getElem?_eq_some_iff.mp hSame with ⟨_, hLetter⟩
    rw [← hLetter, set_getElem_self, String.toList_inj] at hChars
    rw [hChars, hUsed] at hFree
    cases hFree

/- The protected parts of a window stay as they are. -/
theorem shape_of_variant (hVariant : Variant d.window d.places target) :
    (d.isArray = true → target.toList.getLast? = some '_') ∧ d.start.toList <+: target.toList := by
  constructor
  · intro hArray
    unfold places at hVariant
    rw [hArray] at hVariant
    have hName : isArrayName d.name = true := (Bool.and_eq_true_iff.mp hArray).2
    have hLimit : 0 < d.limit := by cases d <;> exact Nat.succ_pos _
    rw [hVariant.getLast?, window_eq, hArray, String.toList_append, getLast?_append,
      window_getLast? hLimit hName]
    rfl
  · refine hVariant.start ?_ fun p hP => ?_
    · rw [window, String.toList_append]
      exact prefix_append _ _
    · rw [String.length_toList]
      exact (mem_positions.mp hP).1

theorem window_of_short (h : d.name.length ≤ d.limit) :
    d.window = d.start ++ d.name := by
  unfold window
  split
  · rw [Nat.sub_eq_zero_of_le h, drop_zero, String.ofList_toList]
  · rw [take_of_length_le (String.length_toList ▸ h), String.ofList_toList]

theorem stops_of_answer (h : d.answer t = .error e) : d.Stops t e := by
  cases d with
  | everywhere kind name =>
    cases kind with
    | data =>
      intro _ _
      unfold allocateGlobals
      rw [show t.bindGlobal .data name = .error e from h]
    | label => trivial
  | inside owner name =>
    intro _ _ _
    unfold bindSlots
    rw [show t.bindLocalAs name name owner = .error e from h]

/-
  A name that is not bound in its scope has no target exactly
  if all texts that could be it are in use, and then no table
  changes. Otherwise the target is the window, or differs from
  it at one position; that of an array ends in an underscore,
  that of a local starts as its function does, and a name that
  is short and free is kept.
-/
theorem answer_complete (h : d.IsNew t) :
    ((∃ e, d.answer t = .error e) ↔ d.Exhausted t) ∧
      (∀ e, d.answer t = .error e → d.Stops t e) ∧
      (∀ target t', d.answer t = .ok (target, t') →
        d.Gives t target ∧
        t' = t.bind ⟨d.name, target, d.kind, d.scope⟩ ∧
        (d.isArray = true → target.toList.getLast? = some '_') ∧
        d.start.toList <+: target.toList) ∧
      (d.name.length ≤ d.limit → t.inUse (d.start ++ d.name) = false →
        ∃ t', d.answer t = .ok (d.start ++ d.name, t')) := by
  refine ⟨answer_eq_error h, fun _ => stops_of_answer, ?_, ?_⟩
  · intro target t' hAnswer
    have hBound := hAnswer
    rw [answer_of_new h] at hBound
    rcases SymbolTable.bindFree_eq_ok hBound with ⟨hFree, hVariant, hTable⟩
    refine ⟨?_, hTable, shape_of_variant hVariant⟩
    cases hUsed : t.inUse d.window with
    | true => exact gives_of_variant hVariant hFree hUsed
    | false =>
      rw [answer_of_free h hUsed] at hAnswer
      cases hAnswer
      exact ⟨hFree, .inl rfl⟩
  · intro hShort hFree
    rw [← window_of_short hShort] at hFree ⊢
    exact ⟨_, answer_of_free h hFree⟩

/- A table in which all letters are labels. -/
def alphabet : SymbolTable :=
  { SymbolTable.empty with
    takenLabels := (List.range 26).map fun i => String.singleton (Char.ofNat (97 + i)) }

theorem answer_complete_alphabet :
    (everywhere .label "x").answer alphabet = .error (.of (.namesExhausted .label "x")) ∧
      (everywhere .label "x").Exhausted alphabet := by
  have hNew : (everywhere .label "x").IsNew alphabet := nofun
  have hAnswer : (everywhere .label "x").answer alphabet =
        .error (.of (.namesExhausted .label "x")) := by
    decide +kernel
  exact ⟨hAnswer, (answer_complete hNew).1.mp ⟨_, hAnswer⟩⟩

end Demand

end Compile

end Pep9
