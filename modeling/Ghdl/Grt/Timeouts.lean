import Ghdl.Grt.ProcessRuns

/-!
# The scan of the timeout chain

`Simulation_Cycle` scans the timeout chain and calls `Internal_Error` for a process that its timeout has
awaked before. A nonpostponed process is run, and so leaves the chain, in the cycle that awakes it. A
postponed one stays on the chain for the rest of the time step: the scan fails if the chain is scanned
once more in that time step, that is, if a process waits for 0 ns or the time is `Time'High`.
`Kernel.KeepsTimeouts` leaves out exactly these two steps.
-/

namespace Ghdl.Grt

open Fallible Transition

/-- A postponed process that its timeout has awaked is not run yet. -/
def Processes.awaits (procs : Processes) : Bool :=
  (List.range procs.count).any fun p =>
    (procs.proc p).postponed && (procs.proc p).state = .timeout

/-- While a postponed process that its timeout has awaked is not run yet, no nonpostponed process
suspends for no time at all, and no delta cycle starts at the end of the times. -/
def Kernel.KeepsTimeouts (kernel : Kernel) : Label → Prop
  | .suspend suspension => kernel.phase.runsPostponed = false → suspension.time = some 0 →
    kernel.processes.awaits = false
  | .tick => kernel.phase = .simulationCycle → kernel.nextTime = kernel.now →
    kernel.now = StdTime.last → kernel.processes.awaits = false
  | _ => True

instance (kernel : Kernel) (label : Label) : Decidable (kernel.KeepsTimeouts label) := by
  unfold Kernel.KeepsTimeouts
  split <;> infer_instance

namespace Phase

/-- Nonpostponed processes that their timeouts have awaked may be waiting to be run. -/
def runsNonpostponed : Phase → Bool
  | .hook .startOfProcesses _ _ => true
  | .runProcesses postponed _ | .process _ postponed _ => !postponed
  | _ => false

/-- A cycle has started, and the timeout chain is not scanned yet. -/
def scans : Phase → Bool
  | .hook .nextTimeStep _ _ | .afterDelay _ | .updateSignals | .hook .signalsUpdated _ _
  | .timeouts => true
  | _ => false

/-- The callbacks of the end of the time step are called. -/
def endsTimeStep : Phase → Bool
  | .hook .endOfTimeStep _ _ => true
  | _ => false

end Phase

/-- A postponed process that its timeout has awaked is not run yet. -/
def Processes.Awaited (procs : Processes) : Prop :=
  ∃ p, (procs.proc p).state = .timeout ∧ (procs.proc p).postponed = true

theorem StdTime.add_ne {now time : Int} (positive : 0 < time) (fits : time ≤ last) : add now time ≠ now := by
  intro same
  unfold last at fits
  have mod : (now + time).bmod 18446744073709551616 % 18446744073709551616 =
      (now + time) % 18446744073709551616 := Int.bmod_emod
  rw [show (now + time).bmod 18446744073709551616 = now from same] at mod
  omega

theorem Process.not_due_awaken (now : Int) (proc : Process) : ¬(proc.awaken now).Due now := by
  unfold Process.awaken
  split
  · next due =>
    rintro ⟨state, -⟩
    dsimp only at state
    split at state <;> simp at state
  · next other => exact other

variable {p : ProcId}

/-- A process changes only its own record. -/
theorem Processes.Awaited.of_others {procs procs' : Processes}
    (waits : procs'.Awaited) (state : (procs'.proc p).state ≠ .timeout)
    (others : ∀ q, q ≠ p → (procs.proc q).Relinked (procs'.proc q)) : procs.Awaited := by
  obtain ⟨q, expired, postponed⟩ := waits
  have different : q ≠ p := fun same => state (same ▸ expired)
  have relinked := others q different
  exact ⟨q, relinked.state ▸ expired, relinked.postponed ▸ postponed⟩

namespace Kernel

variable {design : Design} {kernel kernel' : Kernel} {cells : List ProcId}

section

variable (scheduled : kernel.Scheduled design cells)
include scheduled

theorem Scheduled.awaits_iff :
    kernel.processes.awaits = true ↔ kernel.processes.Awaited := by
  simp only [Processes.awaits, List.any_eq_true, List.mem_range, Bool.and_eq_true, decide_eq_true_eq]
  constructor
  · rintro ⟨p, -, postponed, state⟩
    exact ⟨p, state, postponed⟩
  rintro ⟨p, state, postponed⟩
  refine ⟨p, ?_, postponed, state⟩
  have sound := scheduled.sound
  have resumed := sound.tabled.resumed p (sound.expired p state)
  refine sound.tabled.bounded p ?_
  rw [if_pos postponed] at resumed
  simp only [List.mem_append]
  exact resumed.elim (fun inside => .inl (.inl inside)) .inr

/-- When no nonpostponed process is to be run, only postponed ones are awaked. -/
theorem Scheduled.postponed_of_timeout
    (table : kernel.phase.table = []) (quiet : kernel.phase.gathers = false)
    (state : (kernel.processes.proc p).state = .timeout) : (kernel.processes.proc p).postponed = true := by
  have sound := scheduled.sound
  have resumed := sound.tabled.resumed p (sound.expired p state)
  rw [table, scheduled.gathered quiet] at resumed
  by_contra other
  simp [other] at resumed

theorem Scheduled.no_timeout
    (table : kernel.phase.table = []) (quiet : kernel.phase.gathers = false)
    (none : kernel.processes.postponedTable = []) (p : ProcId) : (kernel.processes.proc p).state ≠ .timeout := by
  intro state
  have sound := scheduled.sound
  have resumed := sound.tabled.resumed p (sound.expired p state)
  rw [table, scheduled.gathered quiet, none] at resumed
  simp at resumed

end

/-- What holds of the processes that their timeouts have awaked. -/
structure Expires (kernel : Kernel) (cells : List ProcId) : Prop where
  /-- Time does not go on until the postponed ones have been run. -/
  held : kernel.processes.Awaited → kernel.nextTime = kernel.now
  /-- There are none in the initialization. -/
  initial : kernel.initialization = true → ∀ p, (kernel.processes.proc p).state ≠ .timeout
  /-- The nonpostponed ones are run in the cycle that awakes them. -/
  nonpostponed : kernel.phase.runsNonpostponed = false →
    ∀ p, (kernel.processes.proc p).state = .timeout → (kernel.processes.proc p).postponed = true
  /-- There are none at the end of a time step. -/
  ended : kernel.phase.endsTimeStep = true → ∀ p, (kernel.processes.proc p).state ≠ .timeout
  /-- Until the postponed ones are run, no other process of the chain is due. -/
  undue : kernel.phase.runsPostponed = false → kernel.processes.Awaited →
    ∀ q ∈ cells, ¬(kernel.processes.proc q).Due kernel.now
  /-- Until the postponed ones are run, the chain is not scanned again. -/
  later : kernel.phase.runsPostponed = false → kernel.processes.Awaited →
    kernel.processes.firstTimeout = kernel.now →
      kernel.now = StdTime.last ∧ kernel.phase.scans = false

theorem Expires.of_none (none : ∀ p, (kernel.processes.proc p).state ≠ .timeout) : kernel.Expires cells where
  held := fun ⟨p, state, _⟩ => absurd state (none p)
  initial _ := none
  nonpostponed _ p state := absurd state (none p)
  ended _ := none
  undue := fun _ ⟨p, state, _⟩ => absurd state (none p)
  later := fun _ ⟨p, state, _⟩ => absurd state (none p)

theorem Expires.stay (expires : kernel.Expires cells) (now : kernel'.now = kernel.now)
    (next : kernel'.nextTime = kernel.nextTime)
    (initialization : kernel'.initialization = true → kernel.initialization = true)
    (count : kernel'.processes.firstTimeout = kernel.processes.firstTimeout)
    (procs : ∀ p, (kernel'.processes.proc p).state = (kernel.processes.proc p).state ∧
      (kernel'.processes.proc p).postponed = (kernel.processes.proc p).postponed ∧
      (kernel'.processes.proc p).timeout = (kernel.processes.proc p).timeout)
    (nonpostponed : kernel'.phase.runsNonpostponed = false →
      ∀ p, (kernel.processes.proc p).state = .timeout → (kernel.processes.proc p).postponed = true)
    (ended : kernel'.phase.endsTimeStep = true → kernel.phase.endsTimeStep = true)
    (runs : kernel'.phase.runsPostponed = false → kernel.phase.runsPostponed = false)
    (scans : kernel'.phase.scans = true → kernel.phase.scans = true) : kernel'.Expires cells := by
  have awaited : kernel'.processes.Awaited → kernel.processes.Awaited := by
    rintro ⟨p, state, postponed⟩
    exact ⟨p, (procs p).1 ▸ state, (procs p).2.1 ▸ postponed⟩
  refine ⟨fun waits => ?_, fun initial p => ?_, fun quiet p state => ?_, fun now p => ?_,
    fun quiet waits q inside => ?_, fun quiet waits first => ?_⟩
  · rw [next, now, expires.held (awaited waits)]
  · rw [(procs p).1]
    exact expires.initial (initialization initial) p
  · rw [(procs p).2.1]
    exact nonpostponed quiet p ((procs p).1 ▸ state)
  · rw [(procs p).1]
    exact expires.ended (ended now) p
  · have before := expires.undue (runs quiet) (awaited waits) q inside
    unfold Process.Due at before ⊢
    rwa [(procs q).1, (procs q).2.2, now]
  · rw [count, now] at first
    obtain ⟨last, unscanned⟩ := expires.later (runs quiet) (awaited waits) first
    refine ⟨now.trans last, ?_⟩
    by_contra scanned
    rw [scans (by simpa using scanned)] at unscanned
    simp at unscanned

variable {cells' : List ProcId}

section

variable (expires : kernel.Expires cells)
include expires

theorem Expires.awake (clocked : kernel.Clocked)
    (at' : kernel.phase = .timeouts) {processes : Processes}
    (awakes : Processes.Awakes kernel.now kernel.processes processes cells cells') :
    ({ kernel with processes }.callCallbacks .startOfProcesses).Expires cells' := by
  have current : kernel.nextTime = kernel.now := clocked.current (by simp [at'])
  have running : kernel.initialization = false := by
    by_contra initial
    have impossible := (clocked.initial (by simpa using initial)).2
    simp [at', Phase.initial] at impossible
  have undue : kernel.processes.Awaited → kernel.processes.firstTimeout ≠ kernel.now := by
    intro waits first
    have unscanned := (expires.later (by simp [at', Phase.runsPostponed]) waits first).2
    simp [at', Phase.scans] at unscanned
  refine ⟨fun _ => current, fun initial => ?_, fun quiet => ?_, fun now => ?_,
    fun _ waits q inside => ?_, fun _ waits first => ⟨?_, rfl⟩⟩
  · have initial : kernel.initialization = true := initial
    simp [running] at initial
  · simp [callCallbacks, Phase.runsNonpostponed] at quiet
  · simp [callCallbacks, Phase.endsTimeStep] at now
  · have relinked := awakes.relinks q
    show ¬(processes.proc q).Due kernel.now
    rw [relinked.due]
    split
    · exact Process.not_due_awaken kernel.now _
    · next other =>
      have waits' : kernel.processes.Awaited := by
        obtain ⟨p, state, postponed⟩ := waits
        have state : (processes.proc p).state = .timeout := state
        have postponed : (processes.proc p).postponed = true := postponed
        have relinked := awakes.relinks p
        have same : ¬(kernel.now = kernel.processes.firstTimeout ∧ p ∈ cells) := fun both =>
          other ⟨both.1, awakes.members q inside⟩
        rw [if_neg same] at relinked
        exact ⟨p, relinked.state ▸ state, relinked.postponed ▸ postponed⟩
      exact expires.undue (by simp [at', Phase.runsPostponed]) waits' q (awakes.members q inside)
  · have first : processes.firstTimeout = kernel.now := first
    show kernel.now = StdTime.last
    rcases awakes.first with ⟨other, same⟩ | ⟨due, earliest⟩
    · exact absurd (same.symm.trans first).symm other
    rw [earliest] at first
    rcases Processes.earliest_cases kernel.processes StdTime.last
      (cells.filter fun q => ¬(kernel.processes.proc q).Due kernel.now) with
      last | ⟨q, inside, counts, timeout⟩
    · exact first.symm.trans last
    · have other := (List.mem_filter.mp inside).2
      have due : (kernel.processes.proc q).Due kernel.now := ⟨counts.1, timeout.symm.trans first⟩
      simp [due] at other

theorem Expires.ticks (scheduled : kernel.Scheduled design cells)
    (clocked : kernel.Clocked) (keeps : kernel.KeepsTimeouts .tick)
    (ticks : Ticks design kernel kernel') (unscanned : kernel.phase ≠ .timeouts) : kernel'.Expires cells := by
  have idle : kernel.phase.runsNonpostponed = false →
      ∀ p, (kernel.processes.proc p).state = .timeout → (kernel.processes.proc p).postponed = true :=
    expires.nonpostponed
  cases ticks with
  | cycle at' phase next =>
    have quiet : phase.runsNonpostponed = false ∧ phase.endsTimeStep = false ∧
        phase.runsPostponed = false := by
      rcases next with ⟨left, rfl⟩ | rfl | rfl <;> exact ⟨rfl, rfl, rfl⟩
    have running : kernel.initialization = false := by
      by_contra initial
      have impossible := (clocked.initial (by simpa using initial)).2
      simp [at', Phase.initial] at impossible
    refine ⟨fun _ => rfl, fun initial => ?_, fun _ => idle (by simp [at', Phase.runsNonpostponed]),
      fun now => ?_, fun _ waits q inside => ?_, fun _ waits first => ?_⟩
    · have initial : kernel.initialization = true := initial
      simp [running] at initial
    · simp [quiet.2.1] at now
    · show ¬(kernel.processes.proc q).Due kernel.nextTime
      rw [expires.held waits]
      exact expires.undue (by simp [at', Phase.runsPostponed]) waits q inside
    · have same := expires.held waits
      have first : kernel.processes.firstTimeout = kernel.nextTime := first
      rw [same] at first
      have last := (expires.later (by simp [at', Phase.runsPostponed]) waits first).1
      have none := keeps at' same last
      exact absurd (scheduled.awaits_iff.mpr waits) (by simp [none])
  | callback hook kept left at' =>
    obtain ⟨callbacks, kept', same⟩ := returnCallback_eq kernel hook kept left
    rw [same]
    have stays : (Phase.hook hook kept' left).runsNonpostponed = kernel.phase.runsNonpostponed ∧
        (Phase.hook hook kept' left).endsTimeStep = kernel.phase.endsTimeStep ∧
        kernel.phase.runsPostponed = false ∧
        (Phase.hook hook kept' left).scans = kernel.phase.scans := by
      rw [at']
      cases hook <;> exact ⟨rfl, rfl, rfl, rfl⟩
    refine expires.stay rfl rfl id rfl (fun _ => ⟨rfl, rfl, rfl⟩) ?_ ?_ ?_ ?_
    · rw [stays.1]
      exact idle
    · rw [stays.2.1]
      exact id
    · exact fun _ => stays.2.2.1
    · rw [stays.2.2.2]
      exact id
  | nextTimeStep kept at' phase next =>
    refine expires.stay rfl rfl id rfl (fun _ => ⟨rfl, rfl, rfl⟩)
      (fun _ => idle (by simp [at', Phase.runsNonpostponed])) (fun now => ?_)
      (fun _ => by simp [at', Phase.runsPostponed]) fun _ => by simp [at', Phase.scans]
    rcases next with rfl | rfl <;> simp [Phase.endsTimeStep] at now
  | timeCallback at' =>
    obtain ⟨callbacks, phase, same, next⟩ := callTimeCallback_eq kernel
    have unended : phase.endsTimeStep = false := by
      rcases next with rfl | ⟨called, rfl⟩ <;> rfl
    have starts : kernel.phase.runsNonpostponed = false ∧ kernel.phase.runsPostponed = false ∧
        kernel.phase.scans = true := by
      rw [at']
      exact ⟨rfl, rfl, rfl⟩
    rw [same]
    exact expires.stay rfl rfl id rfl (fun _ => ⟨rfl, rfl, rfl⟩) (fun _ => idle starts.1)
      (fun now => absurd (unended.symm.trans now) Bool.false_ne_true) (fun _ => starts.2.1)
      fun _ => starts.2.2
  | timeReturn at' | signalsUpdated kept at' =>
    exact expires.stay rfl rfl id rfl (fun _ => ⟨rfl, rfl, rfl⟩)
      (fun _ => idle (by simp [at', Phase.runsNonpostponed])) (fun now => by
        simp [Phase.endsTimeStep] at now)
      (fun _ => by simp [at', Phase.runsPostponed]) fun _ => by simp [at', Phase.scans]
  | update at' signals updated =>
    obtain ⟨-, first, same⟩ := Processes.resumeProcesses_fields kernel.processes signals.resumed
    refine expires.stay rfl rfl id first (fun p => ?_)
      (fun _ => idle (by simp [at', Phase.runsNonpostponed])) (fun now => by
        simp [callCallbacks, Phase.endsTimeStep] at now)
      (fun _ => by simp [at', Phase.runsPostponed]) fun _ => by simp [at', Phase.scans]
    have same : (({ kernel with signals }.resumeProcesses).callCallbacks
        .signalsUpdated).processes.proc p = _ := same p
    rw [same]
    exact ⟨rfl, rfl, rfl⟩
  | awake at' => exact absurd at' unscanned
  | startOfProcesses kept at' ranProcesses =>
    exact expires.stay rfl rfl id rfl (fun _ => ⟨rfl, rfl, rfl⟩)
      (fun quiet => by simp [Phase.runsNonpostponed] at quiet) (fun now => by
        simp [Phase.endsTimeStep] at now)
      (fun _ => by simp [at', Phase.runsPostponed]) fun now => by simp [Phase.scans] at now
  | firstPostponed at' initial ranProcesses => exact .of_none (expires.initial initial)
  | ran postponed at' initial =>
    cases postponed with
    | true => exact .of_none (expires.initial initial)
    | false =>
      exact expires.stay rfl rfl id rfl (fun _ => ⟨rfl, rfl, rfl⟩)
        (fun _ p state => scheduled.postponed_of_timeout (by simp [at', Phase.table])
          (by simp [at', Phase.gathers]) state)
        (fun now => by simp [Phase.endsTimeStep] at now)
        (fun _ => by simp [at', Phase.runsPostponed]) fun now => by simp [Phase.scans] at now
  | ends start middle at' tn computed kernel' finish =>
    have same : middle = { kernel with signals := middle.signals } := by
      obtain ⟨frame, -⟩ := computeNextTime_frame computed
      rcases at' with ⟨rfl, -⟩ | ⟨rfl, -⟩
      · exact frame
      · exact frame
    have rests : kernel.phase.table = [] ∧ kernel.phase.gathers = false ∧
        kernel.phase.runsNonpostponed = false := by
      rcases at' with ⟨-, at' | at' | ⟨kept, at'⟩⟩ | ⟨-, kept, at'⟩ <;> rw [at'] <;> exact ⟨rfl, rfl, rfl⟩
    have handled : kernel.processes.postponedTable = [] ∨ kernel.phase = .runProcesses true [] →
        ∀ p, (kernel.processes.proc p).state ≠ .timeout := by
      rintro (none | phase)
      · exact scheduled.no_timeout rests.1 rests.2.1 none
      · exact scheduled.no_timeout rests.1 rests.2.1 (scheduled.postponed (by simp [phase, Phase.runsPostponed]))
    by_cases ran : kernel.phase = .runProcesses true []
    · have none := handled (.inr ran)
      rw [same] at finish
      cases finish with
      | delta running same =>
        unfold endDelta
        split <;> exact .of_none none
      | lastKnownDelta | initialization | postponed | endOfTimeStep | timeStep =>
        exact .of_none none
    have unpostponed : kernel.phase.runsPostponed = false := by
      rcases at' with ⟨-, at' | at' | ⟨kept, at'⟩⟩ | ⟨-, kept, at'⟩
      · rw [at']
        rfl
      · exact absurd at' ran
      · rw [at']
        rfl
      · rw [at']
        rfl
    rw [same] at finish
    cases finish with
    | lastKnownDelta phase =>
      exact expires.stay rfl rfl id rfl (fun _ => ⟨rfl, rfl, rfl⟩) (fun _ => idle rests.2.2)
        (fun now => by simp [callCallbacks, Phase.endsTimeStep] at now) (fun _ => unpostponed)
        fun now => by simp [callCallbacks, Phase.scans] at now
    | initialization initial => exact .of_none (expires.initial initial)
    | delta running same =>
      unfold endDelta
      split <;> exact expires.stay rfl rfl id rfl (fun _ => ⟨rfl, rfl, rfl⟩)
        (fun _ => idle rests.2.2) (fun now => by simp [Phase.endsTimeStep] at now)
        (fun _ => unpostponed) fun now => by simp [Phase.scans] at now
    | postponed running later =>
      exact expires.stay rfl rfl id rfl (fun _ => ⟨rfl, rfl, rfl⟩) (fun _ => idle rests.2.2)
        (fun now => by simp [runPostponed, Phase.endsTimeStep] at now) (fun _ => unpostponed)
        fun now => by simp [runPostponed, Phase.scans] at now
    | endOfTimeStep running later done => exact .of_none (handled done)
    | timeStep done =>
      rcases done with ⟨-, done⟩ | ⟨kept, phase⟩
      · exact .of_none (handled done)
      · have phase : kernel.phase = .hook .endOfTimeStep kept 0 := phase
        exact .of_none (expires.ended (by simp [phase, Phase.endsTimeStep]))

theorem Expires.runs {table : List ProcId}
    {postponed : Bool} (at' : kernel.phase = .runProcesses postponed (p :: table))
    {state : ProcessState} {sensitivity : List SignalId}
    (runs : Processes.Runs p state sensitivity kernel.processes kernel'.processes cells cells')
    (other : state ≠ .timeout) (now : kernel'.now = kernel.now) (next : kernel'.nextTime = kernel.nextTime)
    (initialization : kernel'.initialization = kernel.initialization)
    (phase : kernel'.phase = .runProcesses postponed table ∨
      kernel'.phase = .process p postponed table) : kernel'.Expires cells' := by
  have self : (kernel'.processes.proc p).state ≠ .timeout := by
    rw [runs.state]
    exact other
  have awaited : kernel'.processes.Awaited → kernel.processes.Awaited := fun waits =>
    waits.of_others self runs.others
  have flags : kernel'.phase.runsNonpostponed = !postponed ∧
      kernel'.phase.runsPostponed = postponed ∧ kernel'.phase.endsTimeStep = false ∧
      kernel'.phase.scans = false := by
    rcases phase with phase | phase <;> rw [phase] <;> exact ⟨rfl, rfl, rfl, rfl⟩
  have undue : kernel'.phase.runsPostponed = false → kernel'.processes.Awaited →
      ∀ q ∈ cells', ¬(kernel.processes.proc q).Due kernel.now := fun quiet waits q inside =>
    expires.undue (by rw [at']; exact flags.2.1.symm.trans quiet) (awaited waits) q (runs.members q inside)
  refine ⟨fun waits => ?_, fun initial q => ?_, fun quiet q expired => ?_, fun ends => ?_,
    fun quiet waits q inside => ?_, fun quiet waits first => ⟨?_, flags.2.2.2⟩⟩
  · rw [next, now, expires.held (awaited waits)]
  · by_cases same : q = p
    · exact same ▸ self
    · rw [(runs.others q same).state]
      exact expires.initial (initialization.symm.trans initial) q
  · have different : q ≠ p := fun same => self (same ▸ expired)
    rw [(runs.others q different).postponed]
    refine expires.nonpostponed ?_ q ((runs.others q different).state ▸ expired)
    rw [at']
    exact flags.1.symm.trans quiet
  · rw [flags.2.2.1] at ends
    simp at ends
  · have before := undue quiet waits q inside
    rw [now]
    by_cases same : q = p
    · subst same
      obtain ⟨state, timeout⟩ := runs.stays inside
      unfold Process.Due at before ⊢
      rwa [state, timeout]
    · rwa [(runs.others q same).due]
  · rw [now] at first ⊢
    rcases runs.first with same | ⟨off, earliest⟩
    · rw [same] at first
      exact (expires.later (by rw [at']; exact flags.2.1.symm.trans quiet) (awaited waits) first).1
    rw [earliest] at first
    rcases Processes.earliest_cases kernel.processes StdTime.last cells' with
      last | ⟨q, inside, counts, timeout⟩
    · exact first.symm.trans last
    · exact absurd ⟨counts.1, timeout.symm.trans first⟩ (undue quiet waits q inside)

theorem Expires.suspends {table : List ProcId}
    {postponed : Bool} (at' : kernel.phase = .process p postponed table)
    {suspension : Suspension} (keeps : kernel.KeepsTimeouts (.suspend suspension))
    (scheduled : kernel.Scheduled design cells) (may : kernel.maySuspend design p suspension = true)
    {state : ProcessState} {sensitivity : List SignalId}
    (suspends : Processes.Suspends kernel.now p suspension.time state sensitivity kernel.processes
      kernel'.processes cells cells') (other : state ≠ .timeout)
    (now : kernel'.now = kernel.now) (next : kernel'.nextTime = kernel.nextTime)
    (initialization : kernel'.initialization = kernel.initialization) :
    { kernel' with phase := .runProcesses postponed table }.Expires cells' := by
  have self : (kernel'.processes.proc p).state ≠ .timeout := by
    rw [suspends.state]
    exact other
  have awaited : kernel'.processes.Awaited → kernel.processes.Awaited := fun waits =>
    waits.of_others self suspends.others
  have off := (scheduled.running p postponed table at').1.off
  have runs : postponed = false → kernel.phase.runsPostponed = false := fun quiet => by
    rw [at']
    exact quiet
  -- While a postponed process is awaited, the running one is not due again at once.
  have later : postponed = false → kernel.processes.Awaited → ∀ time, suspension.time = some time →
      0 ≤ time → StdTime.add kernel.now time ≠ kernel.now := by
    intro quiet waits time delay positive
    refine StdTime.add_ne (lt_of_le_of_ne positive fun zero => ?_) ?_
    · have none := keeps (runs quiet) (zero ▸ delay)
      exact absurd (scheduled.awaits_iff.mpr waits) (by simp [none])
    cases suspension with
    | wait timeout sensitivity =>
      have delay : timeout = some time := delay
      simpa [maySuspend, delay] using may
    | waitFor other =>
      obtain rfl : other = time := Option.some.inj delay
      simpa [maySuspend] using may
    | delay del =>
      have same : (del : Int) = time := Option.some.inj delay
      have small : del < 2 ^ 32 := by
        simp only [maySuspend, Bool.and_eq_true, decide_eq_true_eq] at may
        exact may.1
      unfold StdTime.last
      omega
    | waitExit | finish => simp [Suspension.time] at delay
  refine ⟨fun waits => ?_, fun initial q => ?_, fun quiet q expired => ?_, fun ends => ?_,
    fun quiet waits q inside => ?_, fun quiet waits first => ⟨?_, rfl⟩⟩
  · show kernel'.nextTime = kernel'.now
    rw [next, now, expires.held (awaited waits)]
  · by_cases same : q = p
    · exact same ▸ self
    · show (kernel'.processes.proc q).state ≠ _
      rw [(suspends.others q same).state]
      exact expires.initial (initialization.symm.trans initial) q
  · have different : q ≠ p := fun same => self (same ▸ expired)
    have relinked := suspends.others q different
    show (kernel'.processes.proc q).postponed = true
    rw [relinked.postponed]
    refine expires.nonpostponed ?_ q (relinked.state ▸ expired)
    rw [at']
    exact quiet
  · simp [Phase.endsTimeStep] at ends
  · show ¬(kernel'.processes.proc q).Due kernel'.now
    rw [now]
    by_cases same : q = p
    · subst same
      rcases suspends.chain with ⟨same, -⟩ | ⟨-, time, delay, positive, timeout, -⟩
      · exact absurd (same ▸ inside) off
      · rintro ⟨-, due⟩
        exact later quiet (awaited waits) time delay positive (timeout.symm.trans due)
    rw [(suspends.others q same).due]
    refine expires.undue (runs quiet) (awaited waits) q ?_
    rcases suspends.chain with ⟨cells, -⟩ | ⟨cells, -⟩
    · exact cells ▸ inside
    · exact (List.mem_cons.mp (cells ▸ inside)).resolve_left same
  · have first : kernel'.processes.firstTimeout = kernel'.now := first
    show kernel'.now = StdTime.last
    rw [now] at first ⊢
    refine (expires.later (runs quiet) (awaited waits) ?_).1
    rcases suspends.chain with ⟨-, same⟩ | ⟨-, time, delay, positive, -, earlier⟩
    · exact same.symm.trans first
    · have different := later quiet (awaited waits) time delay positive
      omega

end

/-- Every step of a run that keeps the timeouts keeps the invariant. -/
theorem Expires.step {label : Label} (expires : kernel.Expires cells)
    (scheduled : kernel.Scheduled design cells) (clocked : kernel.Clocked)
    (keeps : kernel.KeepsTimeouts label) (enabled : kernel.enabled design label = true)
    (result : kernel.step design label = .ok kernel') :
    ∃ cells', kernel'.Expires cells' ∧ kernel'.Scheduled design cells' := by
  cases label with
  | tick =>
    have ticks := tick_cases enabled result
    by_cases scans : kernel.phase = .timeouts
    · cases ticks with
      | awake at' processes awaked =>
        obtain ⟨cells', scheduled', awakes⟩ := scheduled.awake at' awaked
        exact ⟨cells', expires.awake clocked at' awakes, scheduled'⟩
      | _ => simp_all
    · exact ⟨cells, expires.ticks scheduled clocked keeps ticks scans, scheduled.ticks ticks scans⟩
  | run again =>
    obtain ⟨postponed, p, table, at', resumed, runs⟩ := runProcess_cases enabled result
    obtain ⟨cells', state, sensitivity, scheduled', ran, other, -⟩ := scheduled.runs at' resumed runs
    refine ⟨cells', ?_, scheduled'⟩
    cases runs with
    | again waits => exact expires.runs at' ran other rfl rfl rfl (.inl rfl)
    | close waits processes closed | ready notWaiting =>
      exact expires.runs at' ran other rfl rfl rfl (.inr rfl)
  | call call =>
    refine ⟨cells, ?_⟩
    simp only [Kernel.step] at result
    split at result
    · obtain ⟨signals, called, result⟩ := bind_ok.mp result
      have frame := processCall_frame called
      rw [← Except.ok.inj result]
      exact ⟨expires.stay rfl rfl id rfl (fun _ => ⟨rfl, rfl, rfl⟩) expires.nonpostponed id id id,
        scheduled.frame rfl rfl frame.eventList frame.resumed⟩
    · exact Except.ok.inj result ▸ ⟨expires, scheduled⟩
  | suspend suspension =>
    simp only [Kernel.step] at result
    split at result
    · next p postponed table at' =>
      obtain ⟨middle, suspended, result⟩ := bind_ok.mp result
      have may : kernel.maySuspend design p suspension = true := by
        simpa [Kernel.enabled, at'] using enabled
      have frame := suspend_frame suspended
      obtain ⟨cells', _, _, scheduled', suspends, other⟩ := scheduled.suspends at' may suspended
      rw [← Except.ok.inj result]
      exact ⟨cells', expires.suspends at' keeps scheduled may suspends other (by rw [frame])
        (by rw [frame]) (by rw [frame]), scheduled'⟩
    · exact ⟨cells, Except.ok.inj result ▸ ⟨expires, scheduled⟩⟩
  | callback call =>
    rw [← Except.ok.inj result, callbackCall_frame]
    exact ⟨cells, expires.stay rfl rfl id rfl (fun _ => ⟨rfl, rfl, rfl⟩) expires.nonpostponed id id id,
      scheduled.frame rfl rfl rfl rfl⟩

end Kernel

namespace Setup

variable {design : Design} {setup : Setup}

/-- In every state of a run that keeps the timeouts, the processes that their timeouts have awaked are
run before the chain is scanned again. -/
theorem Reaches.expires (wellFormed : setup.WellFormed design) {kernel : Kernel}
    (reaches : setup.Reaches design Kernel.KeepsTimeouts kernel) :
    ∃ cells, kernel.Expires cells ∧ kernel.Scheduled design cells ∧ kernel.Clocked := by
  refine @System.Run.invariant _ _ _ (Kernel.system design) Kernel.KeepsTimeouts (setup.kernel design)
    kernel (fun kernel => ∃ cells, kernel.Expires cells ∧ kernel.Scheduled design cells ∧
      kernel.Clocked) reaches ⟨[], ?_⟩ ?_
  · have scheduled := kernel_scheduled wellFormed
    have registered := register_registered wellFormed
    obtain ⟨-, -, same⟩ := Processes.resumeProcesses_fields (setup.register design).1
      (List.range (setup.register design).1.count)
    refine ⟨.of_none fun p => ?_, scheduled, ⟨fun _ => rfl, fun _ => ⟨rfl, rfl⟩⟩⟩
    rw [Setup.kernel, same]
    exact (registered.states p).1
  · rintro state label next ⟨cells, expires, scheduled, clocked⟩ enabled keeps result
    obtain ⟨cells', expires', scheduled'⟩ := expires.step scheduled clocked keeps enabled result
    exact ⟨cells', expires', scheduled', clocked.step enabled result⟩

/-- In every state of a run that keeps the timeouts in which the timeout chain is about to be scanned,
each process of the chain whose timeout is the current time waits or is delayed, and the scan
returns. -/
theorem scan_handles_timeouts (wellFormed : setup.WellFormed design) {kernel : Kernel}
    (reaches : setup.Reaches design Kernel.KeepsTimeouts kernel) (at' : kernel.phase = .timeouts) :
    (∃ cells, kernel.processes.Chain cells ∧ (kernel.now = kernel.processes.firstTimeout →
      ∀ p ∈ cells, (kernel.processes.proc p).state = .delayed ∨ (kernel.processes.proc p).state = .wait)) ∧
      ∃ kernel', kernel.step design .tick = .ok kernel' := by
  obtain ⟨cells, expires, scheduled, -⟩ := reaches.expires wellFormed
  have suspended : kernel.now = kernel.processes.firstTimeout →
      ∀ p ∈ cells, (kernel.processes.proc p).state ≠ .timeout := by
    intro first p inside expired
    have postponed := expires.nonpostponed (by simp [at', Phase.runsNonpostponed]) p expired
    have unscanned := (expires.later (by simp [at', Phase.runsPostponed]) ⟨p, expired, postponed⟩ first.symm).2
    simp [at', Phase.scans] at unscanned
  refine ⟨⟨cells, scheduled.sound.chain, fun first p inside => ?_⟩, ?_⟩
  · rcases scheduled.sound.suspended p inside with state | state | state
    · exact .inl state
    · exact .inr state
    · exact absurd state (suspended first p inside)
  · obtain ⟨processes, _, awaked, -⟩ := scheduled.sound.awake_returns kernel.now suspended
    exact ⟨_, by simp only [Kernel.step, Kernel.tick, at', awaked]; rfl⟩

end Setup

/-- A design with a signal that no process drives. -/
def idleDesign : Design where
  count := 1
  decl _ := { mode := .b1, modeSig := .modeSignal }
  net _ := .noSignalNet
  propagation := []
  resolved _ := ⟨⟨0, 0⟩, fun _ => [], 0⟩
  conversion _ := ⟨id, ⟨0, 0⟩, ⟨0, 0⟩⟩

/-- A postponed process and a nonpostponed one. -/
def postponedSetup : Setup where
  processes := [⟨true, none, []⟩, ⟨false, none, []⟩]
  values _ := ⟨.b1 false, .b1 false, .b1 false, -StdTime.last, -StdTime.last, false, false, false⟩
  attrTrans _ := ⟨.value (.b1 false), 0⟩
  hooks _ := []
  afterDelay := []
  forceValues := []

/-- Both processes wait until the time 1, the postponed one for an event too. -/
def waitsUntilOne : List Label :=
  [.tick, .run false, .suspend (.waitFor 1), .tick, .run false, .suspend (.wait (some 1) [0]), .tick,
    .tick, .tick, .tick, .tick, .tick]

/-- At the time 1 the nonpostponed process waits for 0 ns, and the next cycle comes to its scan. -/
def waitsForZero : List Label :=
  waitsUntilOne ++
    [.tick, .tick, .run false, .suspend (.waitFor 0), .tick, .tick, .tick, .tick, .tick]

namespace Setup

/-- The first scan at the time 1 returns. -/
theorem scan_handles_timeouts_once : ∃ kernel : Kernel, kernel.phase = .timeouts ∧
    (∃ cells, kernel.processes.Chain cells ∧ (kernel.now = kernel.processes.firstTimeout →
      ∀ p ∈ cells, (kernel.processes.proc p).state = .delayed ∨ (kernel.processes.proc p).state = .wait)) ∧
      ∃ kernel', kernel.step idleDesign .tick = .ok kernel' := by
  refine ⟨((Kernel.system idleDesign).execute Kernel.KeepsTimeouts
    (postponedSetup.kernel idleDesign) waitsUntilOne).get (by decide +kernel), by rfl, ?_⟩
  exact scan_handles_timeouts ⟨by decide⟩ (System.run_of_execute .refl (Option.some_get _).symm) (by rfl)

/-- The second scan at the time 1 finds the postponed process awaked. -/
theorem scan_fails_after_zero_wait : postponedSetup.WellFormed idleDesign ∧ ∃ kernel,
    postponedSetup.Reaches idleDesign (fun _ _ => True) kernel ∧ kernel.phase = .timeouts ∧
      kernel.step idleDesign .tick = .error (.internalError "process in timeout") := by
  refine ⟨⟨by decide⟩, ((Kernel.system idleDesign).execute (fun _ _ => True)
    (postponedSetup.kernel idleDesign) waitsForZero).get (by decide +kernel), ?_, ?_, ?_⟩
  · exact System.run_of_execute .refl (Option.some_get _).symm
  · rfl
  · rfl

end Setup

end Ghdl.Grt
