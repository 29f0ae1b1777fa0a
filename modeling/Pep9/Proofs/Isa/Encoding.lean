import Pep9.Isa.Addressing
import Pep9.Isa.Mnemonic
import Pep9.Script.Lexer
import Pep9.Text.Uppercase

/-
  The tables of instructions and of addressing modes. Names
  and operation codes are read back as what they stand for.

  Key theorems: `Mnemonic.ofName?_name`,
  `Mnemonic.ofOpcode_unary`, `Mnemonic.ofOpcode_branch`,
  `ofOpcode_general`.
-/

namespace Pep9

open List

namespace Isa

/- What stands before the small letters is in upper case. -/
theorem upperChar_eq_self {c : Char}
    (h : c.toNat < 0x61) :
    Text.upperChar c = c := by
  have hRuns : ∀ run ∈ Text.upperRuns, 0x61 ≤ run.first :=
    fun run hRun => of_decide_eq_true (all_eq_true.mp (by decide :
          Text.upperRuns.all (fun run => 0x61 ≤ run.first) = true) run hRun)
  have hNone : Text.upperRuns.findSome? (·.find? c.toNat) = none := by
    refine findSome?_eq_none_iff.mpr fun run hRun => ?_
    have hFirst := hRuns run hRun
    refine if_neg ?_
    simp only [Bool.and_eq_true, decide_eq_true_eq]
    omega
  unfold Text.upperChar
  rw [hNone]

theorem upper_eq_self {s : String}
    (h : s.toList.all (fun c => c.toNat < 0x61) = true) :
    Text.upper s = s := by
  refine String.toList_inj.mp ?_
  unfold Text.upper
  rw [String.toList_map]
  refine (map_congr_left fun c hC => ?_).trans (map_id' _)
  exact upperChar_eq_self (of_decide_eq_true (all_eq_true.mp h c hC))

theorem Mnemonic.mem_all (m : Mnemonic) : m ∈ Mnemonic.all := by
  cases m <;> decide

theorem Addressing.mem_all (mode : Addressing) : mode ∈ Addressing.all := by
  cases mode <;> decide

variable {m : Mnemonic}

namespace Mnemonic

theorem upper_name (m : Mnemonic) : Text.upper m.name = m.name := by
  have hAll : ∀ m ∈ all, m.name.toList.all (fun c => c.toNat < 0x61) = true := by
    decide +kernel
  exact upper_eq_self (hAll m m.mem_all)

theorem ofName?_name (m : Mnemonic) : ofName? m.name = some m := by
  have hAll : ∀ m ∈ all, ofName? m.name = some m := by decide +kernel
  exact hAll m m.mem_all

/- A name has letters and digits only. -/
theorem name_chars (m : Mnemonic) :
    m.name.toList ≠ [] ∧ m.name.toList.all Script.Lexer.isWordChar = true := by
  have hAll : ∀ m ∈ all, m.name.toList ≠ [] ∧ m.name.toList.all Script.Lexer.isWordChar = true := by
    decide +kernel
  exact hAll m m.mem_all

/- The test on the first byte tells the form of an instruction. -/
theorem form_ofOpcode (code : UInt8) : (ofOpcode code).form = formOf code := by
  have hAll : ∀ n : Fin 256, (ofOpcode (.ofFin n)).form = formOf (.ofFin n) := by decide +kernel
  exact hAll code.toFin

theorem ofOpcode_unary (h : m.form = .unary) : ofOpcode m.opcode = m := by
  have hAll : ∀ m ∈ all, m.form = .unary → ofOpcode m.opcode = m := by
    decide +kernel
  exact hAll m m.mem_all h

theorem ofOpcode_branch (h : m.form = .branch) :
    ofOpcode m.opcode = m ∧ m.opcode &&& 1 ≠ 1 := by
  have hAll : ∀ m ∈ all, m.form = .branch → ofOpcode m.opcode = m ∧ m.opcode &&& 1 ≠ 1 := by
    decide +kernel
  exact hAll m m.mem_all h

end Mnemonic

theorem ofOpcode_general
    (mode : Addressing)
    (h : m.form = .general) :
    Mnemonic.ofOpcode (m.opcode ||| mode.field) = m ∧
      Addressing.ofField (m.opcode ||| mode.field) = mode := by
  have hAll : ∀ m ∈ Mnemonic.all, ∀ mode ∈ Addressing.all, m.form = .general →
        Mnemonic.ofOpcode (m.opcode ||| mode.field) = m ∧
          Addressing.ofField (m.opcode ||| mode.field) = mode := by
    decide +kernel
  exact hAll m m.mem_all mode mode.mem_all h

end Isa

end Pep9
