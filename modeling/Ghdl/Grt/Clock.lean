import Ghdl.Grt.Steps
import Ghdl.Grt.Suspension

/-!
# The clock

`Current_Time` and `Next_Time` over whole runs: `Next_Time` is set at the end of a cycle only, and the
initialization is at time 0.
-/

namespace Ghdl.Grt

open Fallible Transition

/-- The phases of `Initialization_Phase`. -/
def Phase.initial : Phase → Bool
  | .hook .startOfProcesses _ _ | .hook .lastKnownDelta _ _ | .runProcesses _ _ | .process _ _ _
  | .computeNextTime => true
  | _ => false

namespace Kernel

variable {design : Design} {kernel kernel' : Kernel}

/-- The next time is the current one while a cycle goes on, and the initialization is at time 0. -/
structure Clocked (kernel : Kernel) : Prop where
  /-- The next time is only set at the end of a cycle. -/
  current : kernel.phase ≠ .simulationCycle → kernel.nextTime = kernel.now
  /-- The initialization is at time 0. -/
  initial : kernel.initialization = true → kernel.now = 0 ∧ kernel.phase.initial = true

theorem Clocked.stay (clocked : kernel.Clocked) (phase : kernel.phase ≠ .simulationCycle)
    (now : kernel'.now = kernel.now) (next : kernel'.nextTime = kernel.nextTime)
    (initialization : kernel'.initialization = kernel.initialization)
    (initial : kernel.phase.initial = true → kernel'.phase.initial = true) : kernel'.Clocked where
  current _ := by rw [next, now, clocked.current phase]
  initial initial' := by
    rw [now]
    rw [initialization] at initial'
    exact ⟨(clocked.initial initial').1, initial (clocked.initial initial').2⟩

theorem Clocked.step {label : Label} (clocked : kernel.Clocked)
    (enabled : kernel.enabled design label = true) (result : kernel.step design label = .ok kernel') :
    kernel'.Clocked := by
  cases label with
  | tick =>
    cases tick_cases enabled result with
    | cycle at' phase next =>
      refine ⟨fun _ => rfl, fun initial => ?_⟩
      have impossible := (clocked.initial initial).2
      simp [at', Phase.initial] at impossible
    | callback hook kept left at' =>
      unfold returnCallback
      split <;> exact clocked.stay (by simp [at']) rfl rfl rfl (by rw [at']; cases hook <;> exact id)
    | timeCallback at' =>
      unfold callTimeCallback
      split
      · exact clocked.stay (by simp [at']) rfl rfl rfl (by simp [at', Phase.initial])
      · split <;> exact clocked.stay (by simp [at']) rfl rfl rfl (by simp [at', Phase.initial])
    | nextTimeStep kept at' | timeReturn at' | update at' | signalsUpdated kept at' | awake at' =>
      exact clocked.stay (by simp [at']) rfl rfl rfl (by simp [at', Phase.initial])
    | startOfProcesses kept at' | firstPostponed at' | ran postponed at' =>
      exact clocked.stay (by simp [at']) rfl rfl rfl fun _ => rfl
    | ends start middle at' tn computed kernel' finish =>
      have same : middle = { kernel with signals := middle.signals } := by
        obtain ⟨frame, -⟩ := computeNextTime_frame computed
        rcases at' with ⟨rfl, -⟩ | ⟨rfl, -⟩
        · exact frame
        · exact frame
      have phase : kernel.phase ≠ .simulationCycle := by
        rcases at' with ⟨-, at' | at' | ⟨kept, at'⟩⟩ | ⟨-, kept, at'⟩ <;> simp [at']
      rw [same] at finish
      cases finish with
      | lastKnownDelta at' => exact clocked.stay phase rfl rfl rfl fun _ => rfl
      | initialization initial =>
        exact ⟨fun impossible => absurd rfl impossible, fun impossible => by
          simp [endInitialization] at impossible⟩
      | delta running same =>
        unfold endDelta
        have running : kernel.initialization = false := running
        split
        · exact ⟨fun _ => clocked.current phase, fun initial => by simp [running] at initial⟩
        · exact ⟨fun impossible => absurd rfl impossible, fun initial => by simp [running] at initial⟩
      | postponed running later =>
        exact clocked.stay phase rfl rfl rfl fun _ => rfl
      | endOfTimeStep running later done =>
        have running : kernel.initialization = false := running
        exact ⟨fun _ => clocked.current phase, fun initial => by
          simp [callCallbacks, running] at initial⟩
      | timeStep done =>
        refine ⟨fun impossible => absurd rfl impossible, fun initial => ?_⟩
        have initial : kernel.initialization = true := initial
        rcases done with ⟨⟨running, -⟩, -⟩ | ⟨kept, at'⟩
        · have running : kernel.initialization = false := running
          simp [running] at initial
        · have at' : kernel.phase = .hook .endOfTimeStep kept 0 := at'
          have impossible := (clocked.initial initial).2
          simp [at', Phase.initial] at impossible
  | run again =>
    obtain ⟨postponed, p, table, at', -, runs⟩ := runProcess_cases enabled result
    cases runs <;> exact clocked.stay (by simp [at']) rfl rfl rfl fun _ => rfl
  | call call =>
    simp only [Kernel.step] at result
    split at result
    · obtain ⟨signals, -, result⟩ := bind_ok.mp result
      rw [← Except.ok.inj result]
      exact ⟨clocked.current, clocked.initial⟩
    · exact Except.ok.inj result ▸ clocked
  | suspend suspension =>
    simp only [Kernel.step] at result
    split at result
    · next p postponed table at' =>
      obtain ⟨middle, suspended, result⟩ := bind_ok.mp result
      rw [← Except.ok.inj result, suspend_frame suspended]
      exact clocked.stay (by simp [at']) rfl rfl rfl fun _ => rfl
    · exact Except.ok.inj result ▸ clocked
  | callback call =>
    rw [← Except.ok.inj result]
    cases call <;> exact ⟨clocked.current, clocked.initial⟩

end Kernel

namespace Setup

variable {design : Design} {setup : Setup}

end Setup

end Ghdl.Grt
