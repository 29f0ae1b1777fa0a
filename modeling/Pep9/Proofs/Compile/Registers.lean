import Pep9.Proofs.Compile.Evaluation

/-
  Registers that an instruction depends on. Two states that
  differ in nothing but other registers are alike behind it.

  Key theorems: `execute_confined`, `obey_alike`.
-/

namespace Pep9

open Isa (Mnemonic Addressing)
open Listing (Instruction Mode)
open Machine (Fetched Decodes)
open Compile (Fitting Register)

variable {act : Machine → Machine × Option Fault} {spec : UInt16}

namespace Compile.Register

/- The instructions that make use of what a register holds. -/
def readers : Register → List Mnemonic
  | a => [.nota, .nega, .asla, .asra, .adda, .suba, .anda, .ora, .cpwa, .stwa]
  | x => [.notx, .negx, .aslx, .asrx, .addx, .subx, .andx, .orx, .cpwx, .stwx]

/- The instructions that give a register its contents. -/
def writers : Register → List Mnemonic
  | a => [.movspa, .nota, .nega, .asla, .asra, .adda, .suba, .anda, .ora, .ldwa]
  | x => [.notx, .negx, .aslx, .asrx, .addx, .subx, .andx, .orx, .ldwx]

end Compile.Register

namespace Listing.Instruction

/-
  Whether an instruction depends on a register. The index
  register also counts where it is part of an address.
-/
def reads (i : Instruction) (r : Register) : Bool :=
  r.readers.any (fun m => i.op = .known m)
    || (r = .x && i.mode.isIndexed)

def writes (i : Instruction) (r : Register) : Bool :=
  r.writers.any fun m => i.op = .known m

section Known

variable {i : Instruction} {m : Mnemonic} {r : Register}

theorem reads_iff (hOp : i.op = .known m) :
    i.reads r = true ↔ m ∈ r.readers ∨ r = .x ∧ i.mode.isIndexed = true := by
  unfold reads
  rw [Bool.or_eq_true, List.any_eq_true, Bool.and_eq_true, decide_eq_true_iff]
  refine or_congr_left ⟨?_, ?_⟩
  · rintro ⟨_, hMem, hSame⟩
    cases hOp.symm.trans (of_decide_eq_true hSame)
    exact hMem
  · intro hMem
    exact ⟨m, hMem, decide_eq_true hOp⟩

theorem writes_iff (hOp : i.op = .known m) :
    i.writes r = true ↔ m ∈ r.writers := by
  unfold writes
  rw [List.any_eq_true]
  constructor
  · rintro ⟨_, hMem, hSame⟩
    cases hOp.symm.trans (of_decide_eq_true hSame)
    exact hMem
  · intro hMem
    exact ⟨m, hMem, decide_eq_true hOp⟩

end Known

end Listing.Instruction

namespace Machine

/-
  States that differ in nothing but registers, and not in those
  that are known.
-/
structure Alike (known : Register → Prop) (m m' : Machine) : Prop where
  same : m' = { m with a := m'.a, x := m'.x }
  read : ∀ r, known r → r.read m' = r.read m

section Alike

variable {known other : Register → Prop} {value : String → UInt16}
  {i : Instruction} {m m' m'' : Machine}

theorem Alike.refl (m : Machine) : Alike known m m := ⟨rfl, fun _ _ => rfl⟩

theorem Alike.mono
    (h : Alike known m m')
    (hKnown : ∀ r, other r → known r) :
    Alike other m m' :=
  ⟨h.same, fun r hR => h.read r (hKnown r hR)⟩

section

variable {mode : Mode} {addressing : Addressing} {a x : UInt16}
  (hMode : mode.addressing? = some addressing)
  (hIndex : mode.isIndexed = true → x = m.x)
include hMode hIndex

/- An address is the same, if the index register has no part in it. -/
theorem address_alike : address { m with a := a, x := x } spec addressing =
      address m spec addressing := by
  cases mode <;> cases hMode <;> first | rfl | (cases hIndex rfl; rfl)

theorem operand_alike : operand { m with a := a, x := x } spec addressing =
      operand m spec addressing := by
  unfold operand
  rw [address_alike hMode hIndex]

end

/-
  What an instruction makes of a state in which registers that
  it does not read are different: it writes the same words to
  its registers, and leaves the others.
-/
def Confined (i : Mnemonic) (indexed : Bool) (act : Machine → Machine × Option Fault) : Prop :=
  ∀ (m : Machine) (a x : UInt16), (i ∈ Register.readers .a → a = m.a) →
      (i ∈ Register.readers .x ∨ indexed = true → x = m.x) → act { m with a := a, x := x } =
          ({ (act m).1 with
              a := if i ∈ Register.writers .a then (act m).1.a else a
              x := if i ∈ Register.writers .x then (act m).1.x else x },
            (act m).2)

variable {f : Fetched}

theorem executeUnary_confined (hForm : f.mnemonic.form = .unary) :
    Confined f.mnemonic false fun m => m.executeUnary f := by
  intro _ _ _ hA hX
  unfold executeUnary
  generalize f.mnemonic = i at *
  cases i <;> first
    | rfl
    | (cases hA (by decide); rfl)
    | (cases hX (by decide); rfl)
    | cases hForm

theorem decimalIn_confined {mode : Mode}
    (hMode : mode.addressing? = some f.mode) :
    Confined .deci mode.isIndexed fun m => m.decimalIn f := by
  intro m _ x _ hX
  have hIndex : mode.isIndexed = true → x = m.x := fun h => hX (.inr h)
  unfold decimalIn
  dsimp only
  rcases readNumber m.input with ⟨_ | _, _⟩
  · rfl
  · rw [address_alike hMode hIndex]
    rfl

theorem executeGeneral_confined {mode : Mode}
    (hForm : f.mnemonic.form = .general)
    (hMode : mode.addressing? = some f.mode) :
    Confined f.mnemonic mode.isIndexed fun m => m.executeGeneral f := by
  intro m a x hA hX
  have hIndex : mode.isIndexed = true → x = m.x := fun h => hX (.inr h)
  have hRead : f.mnemonic ∈ Register.readers .x → x = m.x := fun h => hX (.inl h)
  have hInput := decimalIn_confined hMode m a x nofun fun h => hX (h.imp_left nofun)
  unfold executeGeneral store
  dsimp only at hInput ⊢
  rw [operand_alike hMode hIndex, address_alike hMode hIndex]
  generalize f.mnemonic = i at *
  by_cases hPlace : f.mode = .immediate
  · simp only [if_pos hPlace]
    cases i <;> first
      | rfl
      | (cases hA (by decide); rfl)
      | (cases hRead (by decide); rfl)
      | cases hForm
  · simp only [if_neg hPlace]
    cases i <;> first
      | exact hInput
      | rfl
      | (cases hA (by decide); rfl)
      | (cases hRead (by decide); rfl)
      | cases hForm

theorem executeBranch_confined
    (hForm : f.mnemonic.form = .branch)
    (hDirect : f.isIndexed = false) :
    Confined f.mnemonic false fun m => m.executeBranch f := by
  intro m _ _ _ _
  unfold executeBranch target
  simp only [hDirect, Bool.false_eq_true, if_false]
  generalize f.mnemonic = i at *
  by_cases hTakes : m.flags.takes i = true
  · rw [if_pos hTakes, if_pos hTakes]
    cases i <;> first | rfl | cases hForm
  · rw [if_neg hTakes, if_neg hTakes]
    cases i <;> first | rfl | cases hForm

theorem Confined.direct {i : Mnemonic}
    (h : Confined i false act)
    (indexed : Bool) :
    Confined i indexed act := by
  intro m a x hA hX
  refine h m a x hA fun hRead => hX (.inl ?_)
  exact hRead.resolve_right nofun

theorem execute_confined (h : Decodes value i f) :
    Confined f.mnemonic i.mode.isIndexed fun m => m.execute f := by
  intro m a x
  simp only [execute_eq]
  cases hForm : f.mnemonic.form with
  | unary => exact (executeUnary_confined hForm).direct _ m a x
  | branch => exact (executeBranch_confined hForm (h.branch hForm).1).direct _ m a x
  | general => exact executeGeneral_confined hForm (h.general hForm).1 m a x

variable (value) in
/- Registers that an instruction does not read have no effect. -/
theorem obey_confined {mn : Mnemonic}
    (hFitting : Fitting i)
    (hOp : i.op = .known mn) :
    Confined mn i.mode.isIndexed fun m => m.obey value i := by
  intro m a x
  have hDecodes := decodes_of value m.pc hFitting
  cases hDecodes.op.symm.trans hOp
  exact execute_confined hDecodes (m.passed value i) a x

/- A register that is not written stays as it is. -/
theorem Confined.kept {i : Mnemonic} {indexed : Bool} {r : Register}
    (h : Confined i indexed act)
    (hWrites : i ∉ r.writers) :
    r.read (act m).1 = r.read m := by
  have hSelf := congrArg Prod.fst (h m m.a m.x (fun _ => rfl) fun _ => rfl)
  refine (congrArg r.read hSelf).trans ?_
  cases r with
  | a | x => exact if_neg hWrites

/-
  Two states in which nothing is different but registers that an
  instruction does not read are alike behind it, and so are the
  registers that it writes.
-/
variable (value) in
theorem obey_alike
    (h : Alike known m m')
    (hFitting : Fitting i)
    (hReads : ∀ r, i.reads r = true → known r) :
    (m'.obey value i).2 = (m.obey value i).2 ∧
      Alike (fun r => known r ∨ i.writes r = true) (m.obey value i).1 (m'.obey value i).1 := by
  have hOp := (decodes_of value m.pc hFitting).op
  generalize (Fetched.of value m.pc i).mnemonic = mn at hOp
  have hConfined := obey_confined value hFitting hOp
  have hObey := hConfined m m'.a m'.x (fun hRead => h.read .a (hReads .a
      ((Instruction.reads_iff hOp).mpr (.inl hRead))))
    (fun hRead => h.read .x (hReads .x ((Instruction.reads_iff hOp).mpr
        (hRead.imp_right fun hIndexed => ⟨rfl, hIndexed⟩))))
  rw [← h.same] at hObey
  dsimp only at hObey
  have hKept : ∀ r : Register, mn ∉ r.writers → known r →
      r.read m' = r.read (m.obey value i).1 := by
    intro r hWrites hKnown
    exact (h.read r hKnown).trans (hConfined.kept hWrites).symm
  refine ⟨?_, ?_, ?_⟩
  · rw [hObey]
  · rw [hObey]
  · intro r hR
    rw [Instruction.writes_iff hOp] at hR
    rw [hObey]
    by_cases hWrites : mn ∈ r.writers
    · cases r with
      | a | x => exact if_pos hWrites
    · have hSame := hKept r hWrites (hR.resolve_right hWrites)
      cases r with
      | a | x => exact (if_neg hWrites).trans hSame

end Alike

end Machine

end Pep9
