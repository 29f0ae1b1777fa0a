import Pep9.Machine.Step

/-
  Loading and running object code.

  Key definitions: `load`, `round`, `runLimit`, `run`,
  `describe`.
-/

namespace Pep9

namespace Machine

/- Object code of this many bytes reaches into the stack. -/
structure LoadError where
  size : Nat
deriving DecidableEq, Repr

def LoadError.message (e : LoadError) : String :=
  "program of " ++ toString e.size ++ " bytes overlaps the stack"

/-
  Puts object code at the start of memory and resets the
  registers. Memory behind the code stays as it is.
-/
def load (m : Machine) (code : List UInt8) : Except LoadError Machine :=
  if code.length ≥ stackTop.toNat then
    .error ⟨code.length⟩
  else
    .ok
      { m with
        a := 0
        x := 0
        sp := stackTop
        pc := 0
        flags := .clear
        memory := m.memory.setBytes 0 code
        halted := false
        steps := 0 }

/-
  One round of a run: the state behind a step, or the outcome
  where the machine halts, faults or has reached a limit on
  its steps. A limit that is not positive is none.
-/
def round (limit : Int64) (m : Machine) : Machine ⊕ Machine × Option Fault :=
  if m.halted then
    .inr (m, none)
  else if limit > 0 ∧ m.steps ≥ limit then
    .inr (m, some (.stepLimit m.steps))
  else
    match m.step with
    | (next, none) => .inl next
    | (last, some fault) => .inr (last, some fault)

/- Takes rounds until one gives an outcome. -/
def runLimit (m : Machine) (limit : Int64) : Machine × Option Fault :=
  Id.run (repeatM (round limit) m)

/- Runs with a limit as it stands in the settings. -/
def run (m : Machine) (limit : Int) : Machine × Option Fault :=
  m.runLimit (.ofInt limit)

def bit (b : Bool) : String :=
  if b then "1" else "0"

def describe (m : Machine) : String :=
  "A=" ++ Text.upperHex 4 m.a.toNat
    ++ " X=" ++ Text.upperHex 4 m.x.toNat
    ++ " SP=" ++ Text.upperHex 4 m.sp.toNat
    ++ " PC=" ++ Text.upperHex 4 m.pc.toNat
    ++ " NZVC=" ++ bit m.flags.n ++ bit m.flags.z
    ++ bit m.flags.v ++ bit m.flags.c
    ++ " H=" ++ bit m.halted
    ++ " S=" ++ toString m.steps

end Machine

end Pep9
