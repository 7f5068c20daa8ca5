import Mathlib.Logic.Basic

/-!
# Runs of systems whose steps can fail

A system takes labelled steps. In each state some labels are enabled, and the step of a label leads to
the next state or fails. `System.Run system meets start state` says that a run from START reaches
STATE, and that each of its steps meets a condition on the state before it and on its label.
-/

namespace Transition

/-- A system that takes labelled steps, each of which may fail. -/
structure System (State Label Error : Type*) where
  /-- The label may happen in the state. -/
  enabled : State → Label → Bool
  /-- The step of a label. -/
  step : State → Label → Except Error State

namespace System

variable {State Label Error : Type*}

/-- A run reaches the state, and each of its steps meets the condition. -/
inductive Run (system : System State Label Error) (meets : State → Label → Prop) (start : State) :
    State → Prop
  /-- The run without steps. -/
  | refl : Run system meets start start
  /-- A run goes on with an enabled step. -/
  | step {state next : State} {label : Label} (run : Run system meets start state)
      (enabled : system.enabled state label = true) (condition : meets state label)
      (result : system.step state label = .ok next) : Run system meets start next

variable {system : System State Label Error} {meets meets' : State → Label → Prop}
  {start state : State}

theorem Run.invariant {inv : State → Prop} (run : system.Run meets start state) (base : inv start)
    (preserved : ∀ state label next, inv state → system.enabled state label = true →
      meets state label → system.step state label = .ok next → inv next) : inv state := by
  induction run with
  | refl => exact base
  | step run enabled condition result ih => exact preserved _ _ _ ih enabled condition result

theorem Run.mono (run : system.Run meets start state)
    (weaker : ∀ state label, meets state label → meets' state label) : system.Run meets' start state := by
  induction run with
  | refl => exact .refl
  | step run enabled condition result ih => exact .step ih enabled (weaker _ _ condition) result

/-- Take the steps of a list of labels, as long as they are enabled, meet the condition and do not
fail. -/
def execute (system : System State Label Error) (meets : State → Label → Prop)
    [∀ state label, Decidable (meets state label)] : State → List Label → Option State
  | state, [] => some state
  | state, label :: labels =>
    if system.enabled state label = true ∧ meets state label then
      match system.step state label with
      | .error _ => none
      | .ok next => execute system meets next labels
    else none

theorem run_of_execute [∀ state label, Decidable (meets state label)] {middle : State}
    {labels : List Label} (run : system.Run meets start middle)
    (executed : system.execute meets middle labels = some state) : system.Run meets start state := by
  induction labels generalizing middle with
  | nil =>
    rw [execute, Option.some.injEq] at executed
    exact executed ▸ run
  | cons label labels ih =>
    rw [execute] at executed
    split at executed
    · next may =>
      cases result : system.step middle label with
      | error e => simp [result] at executed
      | ok next =>
        rw [result] at executed
        exact ih (.step run may.1 may.2 result) executed
    · exact absurd executed (by simp)

theorem exists_run [∀ state label, Decidable (meets state label)] {labels : List Label} {γ : Type*}
    {view : State → γ} {c : γ} (executed : (system.execute meets start labels).map view = some c) :
    ∃ state, system.Run meets start state ∧ view state = c := by
  cases result : system.execute meets start labels with
  | none => simp [result] at executed
  | some state =>
    rw [result] at executed
    exact ⟨state, run_of_execute .refl result, Option.some.inj executed⟩

end System

end Transition
