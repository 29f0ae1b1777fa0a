import Pep9.Proofs.Machine.Execution

/-
  Runs with a budget of steps. A run halts, faults or uses up
  its budget exactly when the steps that are left to it do, and
  one that has used up its budget can be taken up again with a
  greater one.

  Key theorems: `Steps.steps_eq`, `runLimit_eq_runSteps`,
  `runLimit_sound`, `run_budgeted`.
-/

namespace Pep9

namespace Machine

variable {m last : Machine} {k : Nat} {fault : Fault}

/- A step that the counter has room for counts as one. -/
theorem step_counts {next : Machine} {fault? : Option Fault}
    (hGoes : m.halted = false)
    (hStep : m.step = (next, fault?))
    (hRoom : m.steps.toInt < 2 ^ 63 - 1) :
    next.steps.toInt = m.steps.toInt + 1 := by
  have hLeast := m.steps.le_toInt
  have hOne := step_steps hGoes
  rw [hStep] at hOne
  rw [hOne, Int64.toInt_add, Int.bmod_eq_of_le] <;> simp only [Int64.toInt_one] <;> omega

/- The counter tells how many steps were taken. -/
theorem Steps.steps_eq
    (h : Steps k m last)
    (hRoom : m.steps.toInt + k < 2 ^ 63) :
    last.steps.toInt = m.steps.toInt + k := by
  induction h with
  | refl => exact (Int.add_zero _).symm
  | step hGoes hStep _ ih =>
    have hOne := step_counts hGoes hStep (by omega)
    rw [ih (by omega), hOne]
    omega

section Limits

variable {limit : Int64}

/- A run is its first round, and the run behind it. -/
theorem runLimit_eq :
    m.runLimit limit =
      match round limit m with
      | .inl next => next.runLimit limit
      | .inr outcome => outcome := by
  unfold runLimit
  rw [repeatM_eq_of_monadTail]
  unfold repeatM.body
  cases round limit m <;> rfl

theorem runLimit_of_halted (h : m.halted = true) :
    m.runLimit limit = (m, none) := by
  rw [runLimit_eq, round, if_pos h]

/- A run does not stop at a limit that is not reached. -/
theorem runLimit_goes
    (hGoes : m.halted = false)
    (h : ¬(limit > 0 ∧ m.steps ≥ limit)) :
    m.runLimit limit =
      match m.step with
      | (next, none) => next.runLimit limit
      | (next, some fault) => (next, some fault) := by
  rw [runLimit_eq, round, if_neg (by simp [hGoes]), if_neg h]
  rcases m.step with ⟨_, _ | _⟩ <;> rfl

/-
  A run without a limit comes out as any number of its steps
  do, if these come to an end, and goes on from there if not.
-/
theorem runLimit_eq_runSteps
    (n : Nat)
    (m : Machine)
    (hNone : limit ≤ 0) :
    m.runLimit limit =
      match runSteps n m with
      | (last, .halted) => (last, none)
      | (last, .faulted fault) => (last, some fault)
      | (last, .unfinished) => last.runLimit limit := by
  have hFree : ∀ m : Machine, ¬(limit > 0 ∧ m.steps ≥ limit) :=
    fun _ h => Int64.not_lt.mpr hNone h.1
  induction n generalizing m with
  | zero =>
    rw [runSteps]
    cases hHalted : m.halted with
    | true => exact runLimit_of_halted hHalted
    | false => rfl
  | succ _ ih =>
    cases hHalted : m.halted with
    | true =>
      rw [runSteps_of_halted _ hHalted]
      exact runLimit_of_halted hHalted
    | false =>
      rw [runLimit_goes hHalted (hFree m), runSteps, if_neg (by simp [hHalted])]
      rcases m.step with ⟨next, _ | _⟩
      · exact ih next
      · rfl

/- Some steps are taken, and the one behind them faults. -/
def FaultsAfter (k : Nat) (m last : Machine) (fault : Fault) : Prop :=
  ∃ before, Steps k m before ∧ before.halted = false ∧ before.step = (last, some fault)

/- A run goes on from where some steps within its limit lead. -/
theorem Steps.runLimit
    (h : Steps k m last)
    (hWithin : m.steps.toInt + k ≤ limit.toInt) :
    m.runLimit limit = last.runLimit limit := by
  have hMost := limit.toInt_lt
  induction h with
  | refl => rfl
  | step hGoes hStep _ ih =>
    have hOne := step_counts hGoes hStep (by omega)
    rw [runLimit_goes hGoes, hStep]
    · exact ih (by omega)
    · rintro ⟨_, hReached⟩
      rw [ge_iff_le, Int64.le_iff_toInt_le] at hReached
      omega

/- What led to the outcome of a run. -/
theorem runLimit_sound
    (n : Nat)
    (m : Machine)
    (hLimit : 0 < limit)
    (hLeft : m.steps.toInt + n = limit.toInt) :
    match m.runLimit limit with
    | (last, none) => last.halted = true ∧ ∃ k ≤ n, Steps k m last
    | (last, some fault) =>
      (fault = .stepLimit limit ∧ last.halted = false ∧ Steps n m last) ∨
        ∃ k < n, FaultsAfter k m last fault := by
  cases hHalted : m.halted with
  | true =>
    rw [runLimit_of_halted hHalted]
    exact ⟨hHalted, 0, Nat.zero_le n, .refl m⟩
  | false =>
    cases n with
    | zero =>
      have hReached : m.steps = limit := Int64.toInt_inj.mp (by omega)
      have hStops : limit > 0 ∧ m.steps ≥ limit := ⟨hLimit, hReached ▸ Int64.le_refl _⟩
      rw [runLimit_eq, round, if_neg (by simp [hHalted]), if_pos hStops, hReached]
      exact .inl ⟨rfl, hHalted, .refl m⟩
    | succ n =>
      have hMost := limit.toInt_lt
      rw [runLimit_goes hHalted]
      · rcases hStep : m.step with ⟨next, _ | fault⟩
        · have hOne := step_counts hHalted hStep (by omega)
          have hRest := runLimit_sound n next hLimit (by omega)
          dsimp only
          revert hRest
          rcases next.runLimit limit with ⟨_, _ | _⟩
          · rintro ⟨hLast, k, hLe, hSteps⟩
            exact ⟨hLast, k + 1, Nat.succ_le_succ hLe, .step hHalted hStep hSteps⟩
          · rintro (⟨hFault, hLast, hSteps⟩ | ⟨k, hLt, before, hSteps, hFault⟩)
            · exact .inl ⟨hFault, hLast, .step hHalted hStep hSteps⟩
            · exact .inr ⟨k + 1, Nat.succ_lt_succ hLt, before, .step hHalted hStep hSteps, hFault⟩
        · exact .inr ⟨0, Nat.succ_pos n, m, .refl m, hHalted, hStep⟩
      · rintro ⟨_, hReached⟩
        rw [ge_iff_le, Int64.le_iff_toInt_le] at hReached
        omega

section Budget

variable (hLimit : 0 < limit) (hSteps : m.steps ≤ limit)

include hLimit hSteps

/- As many steps are left to a run as its limit is away. -/
theorem runLimit_outcome :
    ∃ n : Nat, m.steps.toInt + n = limit.toInt ∧
      match m.runLimit limit with
      | (last, none) => last.halted = true ∧ ∃ k ≤ n, Steps k m last
      | (last, some fault) =>
        (fault = .stepLimit limit ∧ last.halted = false ∧ Steps n m last) ∨
          ∃ k < n, FaultsAfter k m last fault := by
  rw [Int64.le_iff_toInt_le] at hSteps
  have hLeft : m.steps.toInt + (limit.toInt - m.steps.toInt).toNat = limit.toInt := by omega
  exact ⟨_, hLeft, runLimit_sound _ m hLimit hLeft⟩

theorem runLimit_halts_iff :
    m.runLimit limit = (last, none) ↔ last.halted = true ∧
        ∃ k : Nat, m.steps.toInt + k ≤ limit.toInt ∧ Steps k m last := by
  constructor
  · intro h
    rcases runLimit_outcome hLimit hSteps with ⟨_, hLeft, hOutcome⟩
    rw [h] at hOutcome
    rcases hOutcome with ⟨hHalted, k, hLe, hTaken⟩
    exact ⟨hHalted, k, by omega, hTaken⟩
  · rintro ⟨hHalted, _, hWithin, hTaken⟩
    rw [hTaken.runLimit hWithin]
    exact runLimit_of_halted hHalted

variable {count : Int64}

theorem runLimit_stops_iff :
    m.runLimit limit = (last, some (.stepLimit count)) ↔
      count = limit ∧ last.halted = false ∧
        ∃ k : Nat, m.steps.toInt + k = limit.toInt ∧ Steps k m last := by
  constructor
  · intro h
    rcases runLimit_outcome hLimit hSteps with ⟨n, hLeft, hOutcome⟩
    rw [h] at hOutcome
    rcases hOutcome with ⟨hFault, hGoes, hTaken⟩ | ⟨_, _, _, _, _, hStep⟩
    · exact ⟨Fault.stepLimit.inj hFault, hGoes, n, hLeft, hTaken⟩
    · exact absurd rfl ((step_passedOver hStep).2 count)
  · rintro ⟨rfl, hGoes, k, hExact, hTaken⟩
    have hMost := count.toInt_lt
    have hEnd := hTaken.steps_eq (by omega)
    have hReached : last.steps = count := Int64.toInt_inj.mp (by omega)
    rw [hTaken.runLimit (by omega), runLimit_eq, round, if_neg (by simp [hGoes]), hReached,
      if_pos ⟨hLimit, Int64.le_refl _⟩]

theorem runLimit_faults_iff (hFault : ∀ count, fault ≠ .stepLimit count) :
    m.runLimit limit = (last, some fault) ↔
      ∃ k : Nat, m.steps.toInt + k < limit.toInt ∧ FaultsAfter k m last fault := by
  constructor
  · intro h
    rcases runLimit_outcome hLimit hSteps with ⟨_, hLeft, hOutcome⟩
    rw [h] at hOutcome
    rcases hOutcome with ⟨hStopped, _⟩ | ⟨k, hLt, hFaults⟩
    · exact absurd hStopped (hFault limit)
    · exact ⟨k, by omega, hFaults⟩
  · rintro ⟨k, hWithin, before, hTaken, hGoes, hStep⟩
    have hMost := limit.toInt_lt
    have hEnd := hTaken.steps_eq (by omega)
    rw [hTaken.runLimit (by omega), runLimit_goes hGoes, hStep]
    rintro ⟨_, hReached⟩
    rw [ge_iff_le, Int64.le_iff_toInt_le] at hReached
    omega

/- No run takes more steps than its limit allows. -/
theorem runLimit_steps_le : (m.runLimit limit).1.steps ≤ limit := by
  have hMost := limit.toInt_lt
  rcases runLimit_outcome hLimit hSteps with ⟨n, hLeft, hOutcome⟩
  rw [Int64.le_iff_toInt_le]
  revert hOutcome
  rcases m.runLimit limit with ⟨last, _ | _⟩
  · rintro ⟨_, k, _, hTaken⟩
    have hCount := hTaken.steps_eq (by omega)
    dsimp only
    omega
  · rintro (⟨_, _, hTaken⟩ | ⟨k, _, before, hTaken, hGoes, hStep⟩)
    · have hCount := hTaken.steps_eq (by omega)
      dsimp only
      omega
    · have hCount := hTaken.steps_eq (by omega)
      have hOne := step_counts hGoes hStep (by omega)
      dsimp only
      omega

end Budget

/-
  A run that has stopped at its limit goes on under a greater
  one as if that had been its limit.
-/
theorem runLimit_resumes {more count : Int64}
    (hLimit : 0 < limit)
    (hMore : limit ≤ more)
    (h : (m.runLimit limit).2 = some (.stepLimit count)) :
    (m.runLimit limit).1.runLimit more = m.runLimit more := by
  rcases hRun : m.runLimit limit with ⟨last, _⟩
  rw [hRun] at h
  cases h
  by_cases hSteps : m.steps ≤ limit
  · rcases (runLimit_stops_iff hLimit hSteps).mp hRun with ⟨_, _, k, hExact, hTaken⟩
    rw [Int64.le_iff_toInt_le] at hMore
    exact (hTaken.runLimit (by omega)).symm
  · have hReached : limit > 0 ∧ m.steps ≥ limit := ⟨hLimit, Int64.le_of_lt (Int64.not_le.mp hSteps)⟩
    rw [runLimit_eq, round, if_pos hReached] at hRun
    by_cases hHalted : m.halted = true
    · rw [if_pos hHalted] at hRun
      cases hRun
    · rw [if_neg hHalted] at hRun
      cases hRun
      rfl

/-
  A run with a limit on the steps since the program was loaded.
  It halts if and only if the machine does within the limit,
  stops at the limit if and only if all steps up to it are taken
  and the machine has not halted, and stops at a fault if and
  only if that is the first one within the limit. The limit is
  never exceeded, and a run that has stopped there can be taken
  up again under a greater limit.
-/
theorem run_budgeted
    (m : Machine)
    (hLimit : 0 < limit)
    (hSteps : m.steps ≤ limit) :
    (∀ last, m.runLimit limit = (last, none) ↔
      last.halted = true ∧
        ∃ k : Nat, m.steps.toInt + k ≤ limit.toInt ∧ Steps k m last) ∧
      (∀ last count, m.runLimit limit = (last, some (.stepLimit count)) ↔
        count = limit ∧ last.halted = false ∧
          ∃ k : Nat, m.steps.toInt + k = limit.toInt ∧ Steps k m last) ∧
      (∀ last fault, (∀ count, fault ≠ .stepLimit count) →
        (m.runLimit limit = (last, some fault) ↔
          ∃ k : Nat, m.steps.toInt + k < limit.toInt ∧
            FaultsAfter k m last fault)) ∧
      (m.runLimit limit).1.steps ≤ limit ∧
      ∀ n more count, 0 < n → n ≤ more →
        (m.runLimit n).2 = some (.stepLimit count) →
          (m.runLimit n).1.runLimit more = m.runLimit more := by
  refine ⟨fun last => runLimit_halts_iff hLimit hSteps,
    fun last count => runLimit_stops_iff hLimit hSteps,
    fun last fault hFault => runLimit_faults_iff hLimit hSteps hFault,
    runLimit_steps_le hLimit hSteps, ?_⟩
  intro _ _ _ hPositive hMore hStopped
  exact runLimit_resumes hPositive hMore hStopped

end Limits

/- An instruction that does nothing, and one that halts. -/
def haltsSecond : Machine :=
  { initial "" with
    memory := (Memory.zeros.setByte 0 0x27).setByte 1 0x00 }

/- The limit falls on the first step, then on the one that halts. -/
theorem run_budgeted_haltsSecond :
    ∃ middle last,
      haltsSecond.runLimit 1 = (middle, some (.stepLimit 1)) ∧
      haltsSecond.runLimit 2 = (last, none) ∧
        middle.runLimit 2 = (last, none) ∧ last.steps = 2 := by
  have hFirst : haltsSecond.step = ({ haltsSecond with pc := 1, steps := 1 }, none) := by
    have hCode : haltsSecond.fetch.code = 0x27 := by
      simp [fetch, haltsSecond, initial]
    have hMnemonic : haltsSecond.fetch.mnemonic = .nop1 :=
      Isa.Mnemonic.mem_codes_iff.mp (by rw [hCode]; decide)
    rw [step_goes rfl, execute_eq, hMnemonic]
    unfold executeUnary advance
    simp only [hMnemonic, Fetched.length_eq]
    rfl
  have hSecond : { haltsSecond with pc := 1, steps := 1 }.step =
        ({ haltsSecond with pc := 2, steps := 2, halted := true }, none) := by
    have hCode : { haltsSecond with pc := 1, steps := 1 }.fetch.code = 0x00 := by
      simp [fetch, haltsSecond]
    have hMnemonic : { haltsSecond with pc := 1, steps := 1 }.fetch.mnemonic = .stop :=
      Isa.Mnemonic.mem_codes_iff.mp (by rw [hCode]; decide)
    rw [step_goes rfl, execute_eq, hMnemonic]
    unfold executeUnary advance
    simp only [hMnemonic, Fetched.length_eq]
    rfl
  have hOne := Steps.single rfl hFirst
  have hTwo := hOne.trans (Steps.single rfl hSecond)
  rcases @run_budgeted 1 haltsSecond (by decide) (by decide) with ⟨_, hStops, _, _, hResumes⟩
  rcases @run_budgeted 2 haltsSecond (by decide) (by decide) with ⟨hHalts, _⟩
  have hMiddle := (hStops _ 1).mpr ⟨rfl, rfl, 1, by decide, hOne⟩
  have hLast := (hHalts _).mpr ⟨rfl, 2, by decide, hTwo⟩
  refine ⟨_, _, hMiddle, hLast, ?_, rfl⟩
  have hAgain := hResumes 1 2 1 (by decide) (by decide) (by rw [hMiddle])
  rw [hMiddle, hLast] at hAgain
  exact hAgain

end Machine

end Pep9
