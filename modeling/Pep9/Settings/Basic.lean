/-
  Settings of the compiler and what they may be.

  Key definitions: `Settings`, `standard`, `Invalid`, `check`.
-/

namespace Pep9

/-
  The bytes of an array whose length is not known, whether a
  listing has comments, the width of its label column, the
  steps that a run may take with zero for no limit, and
  whether the listing is assembled.
-/
structure Settings where
  arrayBytes : Int
  comments : Bool
  labelWidth : Int
  maxSteps : Int
  assemble : Bool
deriving DecidableEq, Repr

namespace Settings

def standard : Settings where
  arrayBytes := 200
  comments := true
  labelWidth := 9
  maxSteps := 5000000
  assemble := false

inductive Invalid where
  | arrayBytesShape (value : Int)
  | arrayBytesSize (value : Int)
  | labelWidth (value : Int)
  | maxSteps (value : Int)
deriving DecidableEq, Repr

def Invalid.message : Invalid → String
  | arrayBytesShape value =>
      "arrays.default_bytes must be a positive even number, got "
        ++ toString value
  | arrayBytesSize value =>
      "arrays.default_bytes " ++ toString value
        ++ " exceeds the 64K address space"
  | labelWidth value =>
      "listing.label_width must be positive, got " ++ toString value
  | maxSteps value =>
      "run.max_steps must not be negative, got " ++ toString value

/- The first reason why settings cannot be used. -/
def check (s : Settings) : Except Invalid Settings :=
  if s.arrayBytes ≤ 0 ∨ s.arrayBytes % 2 ≠ 0 then
    .error (.arrayBytesShape s.arrayBytes)
  else if s.arrayBytes > 0xFFFF then
    .error (.arrayBytesSize s.arrayBytes)
  else if s.labelWidth ≤ 0 then
    .error (.labelWidth s.labelWidth)
  else if s.maxSteps < 0 then
    .error (.maxSteps s.maxSteps)
  else
    .ok s

end Settings

end Pep9
