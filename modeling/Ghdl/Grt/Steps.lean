import Ghdl.Grt.SignalFrames

/-!
# What the kernel does next

A step of the kernel on its own has many cases, and every invariant of a run looks at each of them. They
are said here once: `Kernel.Ticks` has a case for each way a step changes the kernel, and
`Kernel.Ends` for each way a cycle ends when the time of the next one is known.
-/

namespace Ghdl.Grt

open Fallible

namespace Kernel

variable {design : Design} {kernel kernel' : Kernel} {tn : Int}

/-- The postponed processes are run. -/
def runPostponed (design : Design) (kernel : Kernel) : Kernel :=
  { kernel.flushActiveChain design with
    processes := { kernel.processes with postponedTable := [] }
    ranProcesses := true
    phase := .runProcesses true kernel.processes.postponedTable }

/-- How a cycle goes on when the time TN of the next one is known. -/
inductive Ends (design : Design) (kernel : Kernel) (tn : Int) : Kernel → Prop
  /-- The callbacks of the last known delta cycle are called. -/
  | lastKnownDelta (phase : kernel.phase = .computeNextTime) :
      Ends design kernel tn (kernel.callCallbacks .lastKnownDelta)
  /-- The initialization is over. -/
  | initialization (initial : kernel.initialization = true) :
      Ends design kernel tn (kernel.endInitialization tn)
  /-- A delta cycle follows, or none. -/
  | delta (running : kernel.initialization = false) (same : tn = kernel.now) :
      Ends design kernel tn kernel.endDelta
  /-- The postponed processes are run. -/
  | postponed (running : kernel.initialization = false) (later : tn ≠ kernel.now) :
      Ends design kernel tn (kernel.runPostponed design)
  /-- The callbacks of the end of the time step are called. -/
  | endOfTimeStep (running : kernel.initialization = false) (later : tn ≠ kernel.now)
      (done : kernel.processes.postponedTable = [] ∨ kernel.phase = .runProcesses true []) :
      Ends design kernel tn (kernel.callCallbacks .endOfTimeStep)
  /-- Time goes on. -/
  | timeStep (done : (kernel.initialization = false ∧ tn ≠ kernel.now) ∧
        (kernel.processes.postponedTable = [] ∨ kernel.phase = .runProcesses true []) ∨
        ∃ kept, kernel.phase = .hook .endOfTimeStep kept 0) :
      Ends design kernel tn (kernel.endTimeStep tn)

/-- What the kernel does next. -/
inductive Ticks (design : Design) (kernel : Kernel) : Kernel → Prop
  /-- A cycle starts. -/
  | cycle (at' : kernel.phase = .simulationCycle) (phase : Phase)
      (next : (∃ left, phase = .hook .nextTimeStep 0 left) ∨ phase = .afterDelay false ∨
        phase = .updateSignals) :
      Ticks design kernel { kernel with now := kernel.nextTime, phase }
  /-- A callback returns. -/
  | callback (hook : Hook) (kept left : Nat) (at' : kernel.phase = .hook hook kept (left + 1)) :
      Ticks design kernel (kernel.returnCallback hook kept left)
  /-- The callbacks of the next time step have been called. -/
  | nextTimeStep (kept : Nat) (at' : kernel.phase = .hook .nextTimeStep kept 0) (phase : Phase)
      (next : phase = .afterDelay false ∨ phase = .updateSignals) :
      Ticks design kernel { kernel with phase }
  /-- The next callback of those registered for a time is looked at. -/
  | timeCallback (at' : kernel.phase = .afterDelay false) : Ticks design kernel kernel.callTimeCallback
  /-- A callback registered for a time returns. -/
  | timeReturn (at' : kernel.phase = .afterDelay true) :
      Ticks design kernel { kernel with phase := .afterDelay false }
  /-- The signals are updated. -/
  | update (at' : kernel.phase = .updateSignals) (signals : SignalState)
      (updated : updateSignals design kernel.now kernel.signals = .ok signals) :
      Ticks design kernel (({ kernel with signals }.resumeProcesses).callCallbacks .signalsUpdated)
  /-- The callbacks after the update of the signals have been called. -/
  | signalsUpdated (kept : Nat) (at' : kernel.phase = .hook .signalsUpdated kept 0) :
      Ticks design kernel { kernel with phase := .timeouts }
  /-- The processes in timeout are awaked. -/
  | awake (at' : kernel.phase = .timeouts) (processes : Processes)
      (awaked : kernel.processes.awake kernel.now = .ok processes) :
      Ticks design kernel ({ kernel with processes }.callCallbacks .startOfProcesses)
  /-- The nonpostponed processes are run. -/
  | startOfProcesses (kept : Nat) (at' : kernel.phase = .hook .startOfProcesses kept 0)
      (ranProcesses : Bool) :
      Ticks design kernel { kernel with
        processes := { kernel.processes with resumeTable := [] }
        ranProcesses
        phase := .runProcesses false kernel.processes.resumeTable }
  /-- The postponed processes are run for the first time. -/
  | firstPostponed (at' : kernel.phase = .runProcesses false []) (initial : kernel.initialization = true)
      (ranProcesses : Bool) :
      Ticks design kernel { kernel with
        processes := { kernel.processes with postponedTable := [] }
        ranProcesses
        phase := .runProcesses true kernel.processes.postponedTable }
  /-- The processes have been run. -/
  | ran (postponed : Bool) (at' : kernel.phase = .runProcesses postponed [])
      (initial : kernel.initialization = postponed) :
      Ticks design kernel { kernel with phase := .computeNextTime }
  /-- The time of the next cycle is looked for. -/
  | ends (start middle : Kernel)
      (at' : start = kernel ∧ (kernel.phase = .computeNextTime ∨
          kernel.phase = .runProcesses true [] ∨ ∃ kept, kernel.phase = .hook .endOfTimeStep kept 0) ∨
        start = kernel.flushActiveChain design ∧ ∃ kept, kernel.phase = .hook .lastKnownDelta kept 0)
      (tn : Int) (computed : start.computeNextTime design = .ok (middle, tn)) (kernel' : Kernel)
      (finish : Ends design middle tn kernel') : Ticks design kernel kernel'

theorem returnCallback_eq (kernel : Kernel) (hook : Hook) (kept left : Nat) : ∃ callbacks kept',
    kernel.returnCallback hook kept left = { kernel with callbacks, phase := .hook hook kept' left } := by
  unfold returnCallback
  split <;> exact ⟨_, _, rfl⟩

theorem callTimeCallback_eq (kernel : Kernel) : ∃ callbacks phase,
    kernel.callTimeCallback = { kernel with callbacks, phase } ∧
      (phase = .updateSignals ∨ ∃ called, phase = .afterDelay called) := by
  unfold callTimeCallback
  split
  · exact ⟨_, _, rfl, .inl rfl⟩
  · split
    · exact ⟨_, _, rfl, .inl rfl⟩
    · exact ⟨_, _, rfl, .inr ⟨_, rfl⟩⟩

theorem endOfTimeStep_ends (running : kernel.initialization = false) (later : tn ≠ kernel.now)
    (done : kernel.processes.postponedTable = [] ∨ kernel.phase = .runProcesses true []) :
    Ends design kernel tn (kernel.endOfTimeStep tn) := by
  unfold endOfTimeStep
  split
  · exact .endOfTimeStep running later done
  · exact .timeStep (.inl ⟨⟨running, later⟩, done⟩)

theorem afterKnownDelta_ends (running : kernel.initialization = false) :
    Ends design kernel tn (kernel.afterKnownDelta design tn) := by
  unfold afterKnownDelta
  split
  · next later =>
    split
    · exact .postponed running later
    · next none => exact endOfTimeStep_ends running later (.inl (not_not.mp none))
  · next same => exact .delta running (not_not.mp same)

theorem afterNextTime_ends (phase : kernel.phase = .computeNextTime) :
    Ends design kernel tn (kernel.afterNextTime design tn) := by
  unfold afterNextTime
  split
  · next initial =>
    split
    · exact .lastKnownDelta phase
    · exact .initialization initial
  · next running =>
    split
    · exact .lastKnownDelta phase
    · exact afterKnownDelta_ends (by simpa using running)

/-- The time of the next cycle does not depend on where the kernel is, and its search leaves the rest of
the kernel. -/
theorem computeNextTime_fields (computed : kernel.computeNextTime design = .ok (kernel', tn)) :
    kernel'.phase = kernel.phase ∧ kernel'.initialization = kernel.initialization ∧
      kernel'.processes = kernel.processes ∧ kernel'.now = kernel.now := by
  rw [(computeNextTime_frame computed).1]
  exact ⟨rfl, rfl, rfl, rfl⟩

theorem tick_cases (enabled : kernel.enabled design .tick = true)
    (result : kernel.tick design = .ok kernel') : Ticks design kernel kernel' := by
  unfold tick at result
  split at result
  · next at' =>
    dsimp only at result
    split at result
    · exact Except.ok.inj result ▸ .cycle at' _ (.inl ⟨_, rfl⟩)
    · simp only [afterHook, Except.ok.injEq] at result
      refine result ▸ .cycle at' _ ?_
      split
      · exact .inr (.inl rfl)
      · exact .inr (.inr rfl)
  · next hook kept at' =>
    unfold afterHook at result
    split at result
    · refine Except.ok.inj result ▸ .nextTimeStep kept at' _ ?_
      split
      · exact .inl rfl
      · exact .inr rfl
    · exact Except.ok.inj result ▸ .signalsUpdated kept at'
    · exact Except.ok.inj result ▸ .startOfProcesses kept at' _
    · obtain ⟨⟨middle, tn⟩, computed, result⟩ := bind_ok.mp result
      refine .ends _ middle (.inr ⟨rfl, kept, at'⟩) tn computed kernel' ?_
      rw [← Except.ok.inj result]
      split
      · next initial => exact .initialization initial
      · next running => exact afterKnownDelta_ends (by simpa using running)
    · obtain ⟨⟨middle, tn⟩, computed, result⟩ := bind_ok.mp result
      refine .ends _ middle (.inl ⟨rfl, .inr (.inr ⟨kept, at'⟩)⟩) tn computed kernel' ?_
      rw [← Except.ok.inj result]
      exact .timeStep (.inr ⟨kept, (computeNextTime_fields computed).1.trans at'⟩)
  · next hook kept left at' => exact Except.ok.inj result ▸ .callback hook kept left at'
  · next at' => exact Except.ok.inj result ▸ .timeCallback at'
  · next at' => exact Except.ok.inj result ▸ .timeReturn at'
  · next at' =>
    obtain ⟨signals, updated, result⟩ := bind_ok.mp result
    exact Except.ok.inj result ▸ .update at' signals updated
  · next at' =>
    obtain ⟨processes, awaked, result⟩ := bind_ok.mp result
    exact Except.ok.inj result ▸ .awake at' processes awaked
  · next postponed table at' =>
    have empty : table = [] := by
      cases table with
      | nil => rfl
      | cons p table => simp [Kernel.enabled, at'] at enabled
    subst empty
    split at result
    · next initial =>
      cases postponed with
      | false => exact Except.ok.inj result ▸ .firstPostponed at' initial _
      | true => exact Except.ok.inj result ▸ .ran true at' initial
    · next running =>
      have running : kernel.initialization = false := by simpa using running
      cases postponed with
      | false => exact Except.ok.inj result ▸ .ran false at' running
      | true =>
        obtain ⟨⟨middle, tn⟩, computed, result⟩ := bind_ok.mp result
        obtain ⟨phase, initial, -, -⟩ := computeNextTime_fields computed
        refine .ends _ middle (.inl ⟨rfl, .inr (.inl at')⟩) tn computed kernel' ?_
        dsimp only at result
        split at result
        · simp at result
        · next later =>
          rw [← Except.ok.inj result]
          exact endOfTimeStep_ends (initial.trans running) later (.inr (phase.trans at'))
  · next at' =>
    obtain ⟨⟨middle, tn⟩, computed, result⟩ := bind_ok.mp result
    refine .ends _ middle (.inl ⟨rfl, .inl at'⟩) tn computed kernel' ?_
    rw [← Except.ok.inj result]
    exact afterNextTime_ends ((computeNextTime_fields computed).1.trans at')
  · next at' => simp [Kernel.enabled, at'] at enabled
  · next at' => simp [Kernel.enabled, at'] at enabled

/-- How the next process is run. -/
inductive RunsProcess (kernel : Kernel) (postponed : Bool) (p : ProcId) (table : List ProcId) :
    Kernel → Prop
  /-- The condition of its wait statement is false, so that it suspends again. -/
  | again (waits : (kernel.processes.proc p).state = .wait) :
      RunsProcess kernel postponed p table { kernel with
        processes := kernel.processes.modify p fun proc =>
          { proc with resumed := false, state := .wait }
        phase := .runProcesses postponed table }
  /-- Its wait statement ends. -/
  | close (waits : (kernel.processes.proc p).state = .wait ∨
        (kernel.processes.proc p).state = .timeout) (processes : Processes)
      (closed : (kernel.processes.modify p fun proc =>
        { proc with resumed := false, sensitivity := [] }).waitClose p = .ok processes) :
      RunsProcess kernel postponed p table { kernel.removeSensitivity p with
        processes, phase := .process p postponed table }
  /-- It was not in a wait statement with a sensitivity. -/
  | ready (other : (kernel.processes.proc p).state ≠ .wait ∧
        (kernel.processes.proc p).state ≠ .timeout) :
      RunsProcess kernel postponed p table { kernel with
        processes := kernel.processes.modify p fun proc => { proc with resumed := false }
        phase := .process p postponed table }

theorem runProcess_cases {again : Bool} (enabled : kernel.enabled design (.run again) = true)
    (result : kernel.runProcess again = .ok kernel') :
    ∃ postponed p table, kernel.phase = .runProcesses postponed (p :: table) ∧
      (kernel.processes.proc p).resumed = true ∧ RunsProcess kernel postponed p table kernel' := by
  unfold runProcess at result
  split at result
  · next postponed p table at' =>
    refine ⟨postponed, p, table, at', ?_⟩
    split at result
    · simp at result
    · next resumed =>
      refine ⟨by simpa using resumed, ?_⟩
      have same : ((kernel.processes.modify p fun proc => { proc with resumed := false }).proc p).state =
          (kernel.processes.proc p).state := by
        simp [Processes.modify]
      have unlisted : ((kernel.processes.modify p fun proc =>
          { proc with resumed := false }).modify p fun proc => { proc with sensitivity := [] }) =
          kernel.processes.modify p fun proc => { proc with resumed := false, sensitivity := [] } := by
        simp [Processes.modify]
      have sensitivity : ((kernel.processes.modify p fun proc =>
          { proc with resumed := false }).proc p).sensitivity =
          (kernel.processes.proc p).sensitivity := by
        simp [Processes.modify]
      simp only [removeSensitivity, unlisted, sensitivity] at result
      split at result
      · next waits =>
        have waits : (kernel.processes.proc p).state = .wait := same ▸ waits
        split at result
        · have suspended : (kernel.processes.modify p fun proc =>
              { proc with resumed := false }).waitSuspend p =
              .ok (kernel.processes.modify p fun proc =>
                { proc with resumed := false, state := .wait }) := by
            simp [Processes.waitSuspend, Processes.setState, Processes.modify, waits]
          rw [suspended] at result
          exact Except.ok.inj result ▸ .again waits
        · obtain ⟨processes, closed, result⟩ := bind_ok.mp result
          exact Except.ok.inj result ▸ .close (.inl waits) processes closed
      · next expired =>
        obtain ⟨processes, closed, result⟩ := bind_ok.mp result
        exact Except.ok.inj result ▸ .close (.inr (same ▸ expired)) processes closed
      · next notWait notTimeout =>
        exact Except.ok.inj result ▸ .ready ⟨fun waits => notWait (same.trans waits),
          fun expired => notTimeout (same.trans expired)⟩
  · next other =>
    unfold Kernel.enabled at enabled
    split at enabled <;> simp_all

end Kernel

end Ghdl.Grt
