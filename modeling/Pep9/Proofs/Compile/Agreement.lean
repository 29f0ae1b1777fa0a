import Pep9.Proofs.Compile.Simulation

/-
  Whole runs of the interpreter and the machine. From states
  that match, both end in the same way after printing the same
  text, or neither ends and both go on printing the same.

  Key theorems: `EndsAs.unique`, `Matches.ends`,
  `Matches.keeps`, `Matches.agrees`.
-/

namespace Pep9

open Machine (Steps runSteps)
open Script (State Store Ending)

variable {fault : InputFault} {n : Nat}

namespace Script

namespace State

variable {s s' last : State} {ending : Ending}

/- Some text is printed, with more behind it or not. -/
def Prints (s : State) (text : String) : Prop :=
  ∃ n, text.toList <+: (s.run n).1.output.toList

theorem run_proceed
    (hStep : s.step = (s', none))
    (n : Nat) :
    s.run (n + 1) = s'.run n := by
  rw [run, hStep]

theorem run_finish
    (hStep : s.step = (last, some ending))
    (n : Nat) :
    s.run (n + 1) = (last, some ending) := by
  rw [run, hStep]

/- A state comes to an end, or goes on. -/
theorem ends_or_runsForever (s : State) :
    (∃ ending output, s.Ends ending output) ∨ s.RunsForever := by
  by_cases hForever : s.RunsForever
  · exact .inr hForever
  · left
    unfold RunsForever at hForever
    rw [not_forall] at hForever
    rcases hForever with ⟨n, hSome⟩
    rcases hRun : s.run n with ⟨last, _ | ending⟩
    · rw [hRun] at hSome
      exact absurd rfl hSome
    · exact ⟨ending, last.output, n, last, hRun, rfl⟩

theorem RunsForever.next
    (h : s.RunsForever)
    (hStep : s.step = (s', none)) :
    s'.RunsForever := by
  intro n
  rw [← run_proceed hStep]
  exact h (n + 1)

theorem RunsForever.not_finish (h : s.RunsForever) :
    s.step ≠ (last, some ending) := by
  intro hStep
  have hNone := h 1
  rw [run_finish hStep] at hNone
  cases hNone

end State

end Script

namespace Machine

def Prints (m : Machine) (text : String) : Prop :=
  ∃ n, text.toList <+: (runSteps n m).1.output.toList

/- Whether the outcome of a run is the end of a script. -/
def IsEnd : Ending → Outcome → Prop
  | .halted, outcome => outcome = .halted
  | .failed fault, outcome => ∃ address, outcome = .faulted (.ofInput address fault)
  | .stuck, _ => False

/- The machine ends as a script does, after printing some text. -/
def EndsAs (m : Machine) (ending : Ending) (output : String) : Prop :=
  ∃ n, IsEnd ending (runSteps n m).2 ∧ (runSteps n m).1.output = output

variable {m last : Machine} {ending ending' : Ending} {outcome : Outcome} {output output' : String}

theorem IsEnd.finished (h : IsEnd ending outcome) : outcome ≠ .unfinished := by
  rintro rfl
  cases ending with
  | halted => cases h
  | failed =>
    rcases h with ⟨_, hSame⟩
    cases hSame
  | stuck => exact h

theorem ofInput_inj {address address' : UInt16} {fault' : InputFault}
    (h : Fault.ofInput address fault = Fault.ofInput address' fault') :
    fault = fault' := by
  cases fault <;> cases fault' <;> simp_all [Fault.ofInput]

theorem IsEnd.unique
    (h : IsEnd ending outcome)
    (h' : IsEnd ending' outcome) :
    ending = ending' := by
  cases ending with
  | halted =>
    cases h
    cases ending' with
    | halted => rfl
    | failed =>
      rcases h' with ⟨_, hSame⟩
      cases hSame
    | stuck => exact h'.elim
  | failed =>
    rcases h with ⟨_, rfl⟩
    cases ending' with
    | halted => cases h'
    | failed =>
      rcases h' with ⟨_, hSame⟩
      rw [ofInput_inj (Outcome.faulted.inj hSame)]
    | stuck => exact h'.elim
  | stuck => exact h.elim

theorem endsAs_halted : m.EndsAs .halted output ↔ m.Halts output := by
  constructor
  · rintro ⟨n, hEnd, hOutput⟩
    exact ⟨n, _, Prod.ext rfl hEnd, hOutput⟩
  · rintro ⟨n, _, hRun, hOutput⟩
    refine ⟨n, ?_⟩
    rw [hRun]
    exact ⟨rfl, hOutput⟩

theorem endsAs_failed :
    m.EndsAs (.failed fault) output ↔ m.Fails fault output := by
  constructor
  · rintro ⟨n, ⟨address, hEnd⟩, hOutput⟩
    exact ⟨n, _, address, Prod.ext rfl hEnd, hOutput⟩
  · rintro ⟨n, _, address, hRun, hOutput⟩
    refine ⟨n, ?_⟩
    rw [hRun]
    exact ⟨⟨address, rfl⟩, hOutput⟩

/- A machine ends in one way only, if at all. -/
theorem EndsAs.unique
    (h : m.EndsAs ending output)
    (h' : m.EndsAs ending' output') :
    ending = ending' ∧ output = output' := by
  rcases h with ⟨_, hEnd, rfl⟩
  rcases h' with ⟨_, hEnd', rfl⟩
  have hSame := runSteps_unique rfl rfl hEnd.finished hEnd'.finished
  rw [hSame] at hEnd
  exact ⟨hEnd.unique hEnd', congrArg (·.1.output) hSame⟩

theorem EndsAs.not_runsForever (h : m.EndsAs ending output) :
    ¬ RunsForever m := by
  rcases h with ⟨n, hEnd, _⟩
  exact fun hForever => hEnd.finished (hForever n)

/- What happens after some steps happens to the machine. -/
theorem Steps.endsAs {k : Nat}
    (h : Steps k m last) :
    last.EndsAs ending output ↔ m.EndsAs ending output := by
  constructor
  · rintro ⟨n, hEnds⟩
    refine ⟨k + n, ?_⟩
    rw [h.runSteps]
    exact hEnds
  · rintro ⟨n, hEnds⟩
    refine ⟨n, ?_⟩
    rw [h.runSteps_of_finished hEnds.1.finished]
    exact hEnds

end Machine

namespace Compile

/-
  The interpreter and the machine do the same: they halt, fail
  on the input or run for ever together, and print the same.
  Nothing in the script is without a meaning.
-/
structure Agrees (s : State) (m : Machine) : Prop where
  halts : ∀ output, s.Ends .halted output ↔ m.Halts output
  fails : ∀ fault output, s.Ends (.failed fault) output ↔ m.Fails fault output
  forever : s.RunsForever ↔ m.RunsForever
  prints : ∀ text, s.Prints text ↔ m.Prints text
  meaning : ∀ output, ¬ s.Ends .stuck output

section Runs

variable {w : World} {declared : Store} {s : State} {m : Machine}

namespace Matches

variable (h : Matches w declared s m)
include h

theorem output_eq : m.output = s.output := by
  cases h with
  | «at» hRunning hTodo hPending => exact hRunning.output

theorem goes : m.halted = false := by
  cases h with
  | «at» hRunning hTodo hPending => exact hRunning.goes

variable (hSound : w.Sound)
include hSound

theorem ends {last : State} {ending : Ending}
    (hRun : s.run n = (last, some ending)) :
    m.EndsAs ending last.output := by
  induction n generalizing s m with
  | zero => cases hRun
  | succ _ ih =>
    cases h.simulates hSound with
    | proceeds hStep hSteps hNext =>
      rw [State.run_proceed hStep] at hRun
      exact hSteps.endsAs.mp (ih hNext hRun)
    | halts hStep hSteps hHalted hOutput =>
      rw [State.run_finish hStep] at hRun
      cases hRun
      refine hSteps.endsAs.mp ⟨0, ?_⟩
      rw [runSteps, if_pos hHalted]
      exact ⟨rfl, hOutput⟩
    | fails hStep hSteps hGoes hFault hOutput =>
      rw [State.run_finish hStep] at hRun
      cases hRun
      refine hSteps.endsAs.mp ⟨1, ?_⟩
      rw [runSteps, if_neg (by simp [hGoes]), hFault]
      exact ⟨⟨_, rfl⟩, hOutput⟩

/- What the interpreter has printed the machine prints. -/
theorem prints (n : Nat) :
    ∃ k, (runSteps k m).1.output = (s.run n).1.output := by
  induction n generalizing s m with
  | zero => exact ⟨0, h.output_eq⟩
  | succ _ ih =>
    cases h.simulates hSound with
    | @proceeds _ j _ hStep hSteps hNext =>
      rcases ih hNext with ⟨k, hSame⟩
      refine ⟨j + k, ?_⟩
      rw [hSteps.runSteps, State.run_proceed hStep]
      exact hSame
    | @halts _ j _ hStep hSteps _ hOutput =>
      refine ⟨j + 0, ?_⟩
      rw [hSteps.runSteps, State.run_finish hStep]
      exact hOutput
    | @fails _ j _ _ _ _ hStep hSteps hGoes hFault hOutput =>
      refine ⟨j + 1, ?_⟩
      rw [hSteps.runSteps, State.run_finish hStep, runSteps, if_neg (by simp [hGoes]), hFault]
      exact hOutput

/-
  A script that has no end takes the machine to any number of
  steps: only finitely many statements in a row need none.
-/
theorem keeps
    (hForever : s.RunsForever)
    (k : Nat) :
    ∃ j n last, k ≤ n ∧ Steps n m last ∧
      Matches w declared (s.run j).1 last := by
  induction k generalizing s m with
  | zero => exact ⟨0, 0, m, Nat.le_refl 0, .refl m, h⟩
  | succ _ ih =>
    -- Fewer statements are left wherever no step is taken.
    induction hLength : s.todo.length using Nat.strong_induction_on generalizing s m with
    | _ _ ihLength =>
      cases h.simulates hSound with
      | @proceeds _ n _ hStep hSteps hNext hProgress =>
        have hForever' := hForever.next hStep
        rcases hProgress with hPos | hFewer
        · rcases ih hNext hForever' with ⟨j, n', last, _, hMore, hLast⟩
          refine ⟨j + 1, n + n', last, by omega, hSteps.trans hMore, ?_⟩
          rw [State.run_proceed hStep]
          exact hLast
        · rcases ihLength _ (hLength ▸ hFewer) hNext hForever' rfl
            with ⟨j, n', last, _, hMore, hLast⟩
          refine ⟨j + 1, n + n', last, by omega, hSteps.trans hMore, ?_⟩
          rw [State.run_proceed hStep]
          exact hLast
      | halts hStep | fails hStep => exact absurd hStep hForever.not_finish

theorem runsForever (hForever : s.RunsForever) :
    m.RunsForever := by
  intro n
  rcases h.keeps hSound hForever n with ⟨_, _, _, hLe, hSteps, hLast⟩
  exact hSteps.unfinished hLast.goes hLe

/- What the machine has printed the interpreter prints. -/
theorem printed (k : Nat) :
    ∃ n, (runSteps k m).1.output.toList <+: (s.run n).1.output.toList := by
  rcases s.ends_or_runsForever with ⟨ending, _, n, last, hRun, rfl⟩ | hForever
  · rcases h.ends hSound hRun with ⟨j, hEnd, hOutput⟩
    refine ⟨n, ?_⟩
    rw [hRun]
    rw [← hOutput, ← Machine.runSteps_of_finished hEnd.finished (Nat.le_max_left j k)]
    exact Machine.runSteps_mono m (Nat.le_max_right j k)
  · rcases h.keeps hSound hForever k with ⟨n, _, _, hLe, hSteps, hLast⟩
    refine ⟨n, ?_⟩
    have hOutput := hSteps.runSteps 0
    rw [← hLast.output_eq]
    have hExtends := Machine.runSteps_mono m hLe
    rw [Nat.add_zero] at hOutput
    rw [hOutput] at hExtends
    exact hExtends

/- Script and program print the same, and end alike. -/
theorem agrees : Agrees s m := by
  have hEnds : ∀ {ending output}, s.Ends ending output → m.EndsAs ending output := by
    rintro _ _ ⟨_, _, hRun, rfl⟩
    exact h.ends hSound hRun
  have hForever := h.runsForever hSound
  -- The other ways of the script are not those of the machine.
  have hBack : ∀ {ending output}, m.EndsAs ending output → s.Ends ending output := by
    intro _ _ hMachine
    rcases s.ends_or_runsForever with ⟨_, _, hScript⟩ | hGoes
    · rcases hMachine.unique (hEnds hScript) with ⟨rfl, rfl⟩
      exact hScript
    · exact absurd (hForever hGoes) hMachine.not_runsForever
  refine ⟨fun output => .trans ⟨hEnds, hBack⟩ Machine.endsAs_halted,
    fun fault output => .trans ⟨hEnds, hBack⟩ Machine.endsAs_failed,
    ⟨hForever, fun hMachine => ?_⟩, fun text => ⟨?_, ?_⟩, ?_⟩
  · rcases s.ends_or_runsForever with ⟨_, _, hScript⟩ | hGoes
    · exact absurd hMachine (hEnds hScript).not_runsForever
    · exact hGoes
  · rintro ⟨n, hText⟩
    rcases h.prints hSound n with ⟨k, hSame⟩
    refine ⟨k, ?_⟩
    rw [hSame]
    exact hText
  · rintro ⟨k, hText⟩
    rcases h.printed hSound k with ⟨n, hExtends⟩
    exact ⟨n, hText.trans hExtends⟩
  · intro _ hStuck
    rcases hEnds hStuck with ⟨_, hNever, _⟩
    exact hNever

end Matches

/- Steps before the first statement change nothing. -/
theorem Agrees.of_steps {m' : Machine}
    (h : Agrees s m')
    (hSteps : Steps n m m') :
    Agrees s m := by
  have hRuns : ∀ k, runSteps (n + k) m = runSteps k m' := hSteps.runSteps
  refine ⟨fun output => (h.halts output).trans ?_,
    fun fault output => (h.fails fault output).trans ?_,
    h.forever.trans ?_, fun text => (h.prints text).trans ?_, h.meaning⟩
  · rw [← Machine.endsAs_halted, ← Machine.endsAs_halted, hSteps.endsAs]
  · rw [← Machine.endsAs_failed, ← Machine.endsAs_failed, hSteps.endsAs]
  · constructor
    · intro hForever k
      by_contra hFinished
      rw [← hSteps.runSteps_of_finished hFinished] at hFinished
      exact hFinished (hForever k)
    · intro hForever k
      rw [← hRuns]
      exact hForever (n + k)
  · constructor
    · rintro ⟨k, hText⟩
      rw [← hRuns] at hText
      exact ⟨n + k, hText⟩
    · rintro ⟨k, hText⟩
      refine ⟨k, hText.trans ?_⟩
      rw [← hRuns]
      exact Machine.runSteps_mono m (Nat.le_add_left k n)

end Runs

end Compile

end Pep9
