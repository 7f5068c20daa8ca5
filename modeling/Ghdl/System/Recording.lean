import Ghdl.System.Run

/-!
# Systems that record what happens

A record is kept beside the states of a system: each step adds to it what the step is, and the system itself
never reads it. So the runs with a record are the runs of the system.
-/

namespace Transition

namespace System

variable {State Label Error Record : Type*}

/-- The system with a record of its steps. -/
def recording (system : System State Label Error) (record : State → Label → State → Record → Record) :
    System (State × Record) Label Error where
  enabled state label := system.enabled state.1 label
  step state label := (system.step state.1 label).map fun next => (next, record state.1 label next state.2)

variable {system : System State Label Error} {record : State → Label → State → Record → Record}
  {meets : State → Label → Prop}

theorem recording_step {state : State × Record} {label : Label} {next : State × Record} :
    (system.recording record).step state label = .ok next ↔
      ∃ after, system.step state.1 label = .ok after ∧ next = (after, record state.1 label after state.2) := by
  show Except.map _ (system.step state.1 label) = _ ↔ _
  generalize system.step state.1 label = result
  cases result with
  | error e => simp [Except.map]
  | ok after => simp [Except.map, eq_comm]

/-- What holds at the start and is kept by every step, which may look at the record, holds in every state
reached. -/
theorem Run.recording_invariant {start state : State × Record} {inv : State → Record → Prop}
    (run : (system.recording record).Run (fun state label => meets state.1 label) start state)
    (base : inv start.1 start.2)
    (preserved : ∀ state kept label next, inv state kept → system.enabled state label = true →
      meets state label → system.step state label = .ok next → inv next (record state label next kept)) :
    inv state.1 state.2 := by
  refine @Run.invariant _ _ _ _ _ _ _ (fun state => inv state.1 state.2) run base ?_
  rintro ⟨state, kept⟩ label next before enabled condition result
  obtain ⟨after, step, rfl⟩ := recording_step.mp result
  exact preserved state kept label after before enabled condition step

end System

end Transition
