import Mathlib.Logic.Basic

/-!
# Exact conditions on steps

Steps are taken one after the other until one fails. A condition on the steps is exact for a fact about the states when
it keeps an invariant that implies the fact, and the fact is lost in every step that does not meet it: then every step
meets the condition exactly in those runs where the fact always holds.
-/

namespace Transition

variable {State Label Error : Type*} (next : State → Label → Except Error State)

/-- A fact holds in every state of the run with these labels, which ends where a step fails. -/
def Always (fact : State → Prop) : State → List Label → Prop
  | state, [] => fact state
  | state, label :: labels => fact state ∧ ∀ after, next state label = .ok after → Always fact after labels

/-- Every step of the run with these labels meets a condition. -/
def EveryStep (meets : State → Label → Prop) : State → List Label → Prop
  | _, [] => True
  | state, label :: labels => meets state label ∧ ∀ after, next state label = .ok after → EveryStep meets after labels

variable {next} {fact inv : State → Prop} {meets : State → Label → Prop} {start : State} {labels : List Label}

theorem Always.head (always : Always next fact start labels) : fact start := by
  cases labels with
  | nil => exact always
  | cons label labels => exact always.1

theorem Always.last {last : State} (always : Always next fact start labels) (run : labels.foldlM next start = .ok last) :
    fact last := by
  induction labels generalizing start with
  | nil => exact Except.ok.inj run ▸ always
  | cons label labels ih =>
    rw [List.foldlM_cons] at run
    cases first : next start label with
    | error e =>
      rw [first] at run
      exact absurd run (by simp [bind, Except.bind])
    | ok after =>
      rw [first] at run
      exact ih (always.2 after first) run

/-- A condition that keeps an invariant, and without which a step loses the fact, is met by every step exactly of the
runs in which the fact always holds. -/
theorem always_iff_everyStep (implies : ∀ state, inv state → fact state)
    (preserved : ∀ state label after, inv state → meets state label → next state label = .ok after → inv after)
    (needed : ∀ state label, inv state → ¬ meets state label → ∃ after, next state label = .ok after ∧ ¬ fact after)
    (base : inv start) : Always next fact start labels ↔ EveryStep next meets start labels := by
  induction labels generalizing start with
  | nil => exact iff_of_true (implies start base) trivial
  | cons label labels ih =>
    constructor
    · intro always
      have met : meets start label := by
        apply Classical.byContradiction
        intro notMet
        obtain ⟨after, step, lost⟩ := needed start label base notMet
        exact lost (always.2 after step).head
      exact ⟨met, fun after step => (ih (preserved start label after base met step)).mp (always.2 after step)⟩
    · intro every
      exact ⟨implies start base, fun after step => (ih (preserved start label after base every.1 step)).mpr (every.2 after step)⟩

end Transition
