import Pep9.Compile.Error

/-
  Results that are successes. Computations that may fail are
  taken apart by what each of their parts returned.

  Key theorems: `Result.bind_eq_ok`, `Result.seq`,
  `Result.bind_eq_error`, `Result.located_eq_ok`,
  `Result.foldlM_ok_induction`.
-/

namespace Pep9

open List

namespace Result

variable {ε ε' α β : Type}

variable {a : α} {f : α → Except ε β} {x : Except ε α}

theorem ok_bind : (Except.ok a >>= f) = f a := rfl

/- A sequence succeeds when both of its parts do. -/
theorem bind_eq_ok {b : β} :
    (x >>= f) = .ok b ↔ ∃ a, x = .ok a ∧ f a = .ok b := by
  cases x with
  | error | ok => simp [bind, Except.bind]

theorem seq {b : β}
    (h : (x >>= f) = .ok b) :
    ∃ a, x = .ok a ∧ f a = .ok b := bind_eq_ok.mp h

/- A sequence fails when one of its parts does. -/
theorem bind_eq_error {e : ε} :
    (x >>= f) = .error e ↔ x = .error e ∨ ∃ a, x = .ok a ∧ f a = .error e := by
  cases x with
  | error | ok => simp [bind, Except.bind]

theorem map_eq_ok {f : α → β} {b : β} :
    x.map f = .ok b ↔ ∃ a, x = .ok a ∧ f a = b := by
  cases x with
  | error | ok => simp [Except.map]

/- Changing the error of a result keeps its successes. -/
theorem mapError_eq_ok {f : ε → ε'} : x.mapError f = .ok a ↔ x = .ok a := by
  cases x with
  | error =>
    constructor
    · intro h
      cases h
    · intro h
      cases h
  | ok =>
    constructor
    · intro h
      cases h
      rfl
    · intro h
      cases h
      rfl

theorem pure_eq_ok {b : α} : (pure a : Except ε α) = .ok b ↔ a = b := by
  simp [pure, Except.pure]

theorem isOk_eq_true : x.isOk = true ↔ ∃ a, x = .ok a := by
  cases x with
  | error | ok => simp [Except.isOk, Except.toBool]

/- A result that is found to be a success with some property. -/
theorem any_eq_true {check : α → Bool} :
    x.toOption.any check = true ↔ ∃ a, x = .ok a ∧ check a = true := by
  cases x with
  | error | ok => simp [Except.toOption]

/- Giving a line to the error of a result keeps its successes. -/
theorem located_eq_ok {line : Int} {x : Except Compile.Error α} :
    Compile.located line x = .ok a ↔ x = .ok a := mapError_eq_ok

/-
  What holds at the start of a fold and is kept by every step
  that succeeds holds at its end.
-/
theorem foldlM_ok_induction {σ : Type}
    (P : σ → Prop)
    {step : σ → α → Except ε σ} {items : List α} {start final : σ}
    (hStart : P start)
    (hStep :
      ∀ s item s', item ∈ items → P s → step s item = .ok s' → P s')
    (hFold : items.foldlM step start = .ok final) :
    P final := by
  induction items generalizing start with
  | nil =>
    rw [foldlM_nil, pure_eq_ok] at hFold
    exact hFold ▸ hStart
  | cons item _ ih =>
    rw [foldlM_cons, bind_eq_ok] at hFold
    rcases hFold with ⟨next, hNext, hRest⟩
    refine ih ?_ ?_ hRest
    · exact hStep start item next mem_cons_self hStart hNext
    · intro s other s' hMem
      exact hStep s other s' (mem_cons_of_mem _ hMem)

end Result

end Pep9
