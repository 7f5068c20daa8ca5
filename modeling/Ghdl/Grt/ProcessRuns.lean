import Ghdl.Grt.Clock
import Ghdl.Grt.Resumption

/-!
# Processes over whole runs

What holds of the processes in every state that a simulation reaches: they are sound, the event lists
name exactly the processes that are sensitive to a signal, and the process that is running is on no
chain. `Kernel.Scheduled` is kept by every step that does not fail, whatever the processes do.
-/

namespace Ghdl.Grt

open Fallible Linked Transition

namespace Phase

/-- The processes that are still to be run, in the table that is being run. -/
def table : Phase → List ProcId
  | .runProcesses _ table | .process _ _ table => table
  | _ => []

/-- Processes are being run. -/
def runs : Phase → Bool
  | .runProcesses _ _ | .process _ _ _ => true
  | _ => false

/-- Postponed processes are being run. -/
def runsPostponed : Phase → Bool
  | .runProcesses postponed _ | .process _ postponed _ => postponed
  | _ => false

/-- Nonpostponed processes may have been resumed, and are not being run yet. -/
def gathers : Phase → Bool
  | .hook .signalsUpdated _ _ | .timeouts | .hook .startOfProcesses _ _ => true
  | _ => false

theorem table_eq_nil {phase : Phase} (rests : phase.runs = false) : phase.table = [] := by
  cases phase <;> simp_all [runs, table]

theorem not_runsPostponed {phase : Phase} (rests : phase.runs = false) : phase.runsPostponed = false := by
  cases phase <;> simp_all [runs, runsPostponed]

end Phase

/-- The event lists name the processes that are sensitive to a signal. -/
structure Sensitive (design : Design) (procs : Processes) (eventList : SignalId → List ActionCell) :
    Prop where
  /-- The process of a static sensitivity list is sensitized. -/
  static : ∀ sig p, ⟨false, p⟩ ∈ eventList sig →
    sig < design.count ∧ p < procs.count ∧ (procs.proc p).state = .sensitized
  /-- A process is in the lists of the signals to which its wait statement is sensitive. -/
  dynamic : ∀ sig p, (eventList sig).count ⟨true, p⟩ = (procs.proc p).sensitivity.count sig
  /-- A process with a sensitivity waits. -/
  waiting : ∀ p, (procs.proc p).sensitivity ≠ [] →
    p < procs.count ∧ ((procs.proc p).state = .wait ∨ (procs.proc p).state = .timeout)

namespace Sensitive

variable {design : Design} {procs procs' : Processes}
  {eventList eventList' : SignalId → List ActionCell} {p : ProcId}

section

variable (sensitive : Sensitive design procs eventList)
include sensitive

/-- A process of an event list may be resumed. -/
theorem resumable {sig : SignalId} {dynamic : Bool}
    (member : ⟨dynamic, p⟩ ∈ eventList sig) :
    p < procs.count ∧ (procs.proc p).state ≠ .delayed ∧ (procs.proc p).state ≠ .dead := by
  cases dynamic with
  | false =>
    obtain ⟨-, known, state⟩ := sensitive.static sig p member
    exact ⟨known, by simp [state]⟩
  | true =>
    have listed := List.count_pos_iff.mpr member
    rw [sensitive.dynamic] at listed
    have some := List.ne_nil_of_mem (List.count_pos_iff.mp listed)
    obtain ⟨known, state | state⟩ := sensitive.waiting p some
    all_goals exact ⟨known, by simp [state]⟩

/-- A process whose state is another one has no sensitivity. -/
theorem idle
    (state : (procs.proc p).state ≠ .wait ∧ (procs.proc p).state ≠ .timeout) : (procs.proc p).sensitivity = [] := by
  by_contra some
  rcases (sensitive.waiting p some).2 with waits | expired
  · exact state.1 waits
  · exact state.2 expired

/-- The sensitivities do not depend on the rest of the processes. -/
theorem congr (count : procs'.count = procs.count)
    (static : ∀ q, (procs.proc q).state = .sensitized → (procs'.proc q).state = .sensitized)
    (waiting : ∀ q, (procs.proc q).state = .wait ∨ (procs.proc q).state = .timeout →
      (procs'.proc q).state = .wait ∨ (procs'.proc q).state = .timeout)
    (same : ∀ q, (procs'.proc q).sensitivity = (procs.proc q).sensitivity) : Sensitive design procs' eventList where
  static sig q member := by
    obtain ⟨inside, known, state⟩ := sensitive.static sig q member
    exact ⟨inside, count ▸ known, static q state⟩
  dynamic sig q := by
    rw [same]
    exact sensitive.dynamic sig q
  waiting q some := by
    rw [same] at some
    obtain ⟨known, state⟩ := sensitive.waiting q some
    exact ⟨count ▸ known, waiting q state⟩

/-- One process changes its sensitivity. -/
theorem update (p : ProcId) (count : procs'.count = procs.count)
    (others : ∀ q, q ≠ p → (procs.proc q).Relinked (procs'.proc q))
    (lists : ∀ sig cell, cell ≠ ⟨true, p⟩ → (eventList' sig).count cell = (eventList sig).count cell)
    (static : ∀ sig, ⟨false, p⟩ ∈ eventList sig → (procs'.proc p).state = .sensitized)
    (dynamic : ∀ sig, (eventList' sig).count ⟨true, p⟩ = (procs'.proc p).sensitivity.count sig)
    (waiting : (procs'.proc p).sensitivity ≠ [] →
      p < procs.count ∧ ((procs'.proc p).state = .wait ∨ (procs'.proc p).state = .timeout)) :
    Sensitive design procs' eventList' where
  static sig q member := by
    have before : ⟨false, q⟩ ∈ eventList sig := by
      have listed := List.count_pos_iff.mpr member
      rw [lists sig ⟨false, q⟩ (by simp)] at listed
      exact List.count_pos_iff.mp listed
    obtain ⟨inside, known, state⟩ := sensitive.static sig q before
    refine ⟨inside, count ▸ known, ?_⟩
    by_cases same : q = p
    · subst same
      exact static sig before
    · rw [(others q same).state, state]
  dynamic sig q := by
    by_cases same : q = p
    · exact same ▸ dynamic sig
    · rw [(others q same).sensitivity, lists sig ⟨true, q⟩ (by simpa using same)]
      exact sensitive.dynamic sig q
  waiting q some := by
    rw [count]
    by_cases same : q = p
    · subst same
      exact waiting some
    · rw [(others q same).sensitivity] at some
      rw [(others q same).state]
      exact sensitive.waiting q some

end

end Sensitive

theorem count_removeSensitivity (eventList : SignalId → List ActionCell) (p : ProcId)
    (sensitivity : List SignalId) (sig : SignalId) (cell : ActionCell) : ((sensitivity.foldl
        (fun eventList sig => Function.update eventList sig ((eventList sig).erase ⟨true, p⟩))
        eventList) sig).count cell =
      (eventList sig).count cell - if cell = ⟨true, p⟩ then sensitivity.count sig else 0 := by
  induction sensitivity generalizing eventList with
  | nil => simp
  | cons other sensitivity ih =>
    rw [List.foldl_cons, ih]
    by_cases here : sig = other
    · subst here
      rw [Function.update_self, List.count_erase, List.count_cons_self]
      by_cases same : cell = ⟨true, p⟩
      · rw [if_pos same, if_pos same, same, if_pos (by simp)]
        omega
      · rw [if_neg same, if_neg same, if_neg (by simpa using fun eq => same eq.symm)]
        rfl
    · rw [Function.update_of_ne here, List.count_cons_of_ne (Ne.symm here)]

/-- The time for which a process suspends, if there is one. -/
def Suspension.time : Suspension → Option Int
  | .wait timeout _ => timeout
  | .waitFor time => some time
  | .delay del => some del
  | .waitExit | .finish => none

namespace Kernel

/-- What holds of the processes in every state of the kernel. -/
structure Scheduled (design : Design) (kernel : Kernel) (cells : List ProcId) : Prop where
  /-- The processes are sound. -/
  sound : kernel.processes.Sound cells kernel.phase.table
  /-- The event lists name the sensitive processes. -/
  sensitive : Sensitive design kernel.processes kernel.signals.eventList
  /-- Every process that an update of the signals resumed has been resumed. -/
  resumed : kernel.signals.resumed = []
  /-- The process that is running is on no chain and neither suspended nor to be run. -/
  running : ∀ p postponed table, kernel.phase = .process p postponed table →
    kernel.processes.Running cells p ∧
      ((kernel.processes.proc p).state = .ready ∨ (kernel.processes.proc p).state = .sensitized)
  /-- Nonpostponed processes are resumed only in some phases. -/
  gathered : kernel.phase.gathers = false → kernel.processes.resumeTable = []
  /-- Postponed processes are not resumed while they are run. -/
  postponed : kernel.phase.runsPostponed = true → kernel.processes.postponedTable = []

variable {design : Design} {kernel kernel' : Kernel} {cells : List ProcId}

section

variable (scheduled : kernel.Scheduled design cells)
include scheduled

theorem Scheduled.rest
    (rests : kernel.phase.runs = false ∨ kernel.phase.table = [])
    (rests' : kernel'.phase.runs = false) (processes : kernel'.processes = kernel.processes)
    (lists : kernel'.signals.eventList = kernel.signals.eventList)
    (resumed : kernel'.signals.resumed = kernel.signals.resumed)
    (gathered : kernel'.phase.gathers = false → kernel.phase.gathers = false ∨
      kernel.processes.resumeTable = []) : kernel'.Scheduled design cells where
  sound := by
    have table : kernel.phase.table = [] := rests.elim Phase.table_eq_nil id
    rw [processes, Phase.table_eq_nil rests', ← table]
    exact scheduled.sound
  sensitive := by
    rw [processes, lists]
    exact scheduled.sensitive
  resumed := resumed.trans scheduled.resumed
  running p postponed table at' := by simp [at', Phase.runs] at rests'
  gathered quiet := by
    rw [processes]
    exact (gathered quiet).elim scheduled.gathered id
  postponed now := by simp [Phase.not_runsPostponed rests'] at now

theorem Scheduled.start
    (rests : kernel.phase.table = []) (postponed ranProcesses : Bool)
    (other : if postponed then kernel.processes.resumeTable = [] else True) :
    { kernel with
      processes := if postponed then { kernel.processes with postponedTable := [] }
        else { kernel.processes with resumeTable := [] }
      ranProcesses
      phase := .runProcesses postponed
        (if postponed then kernel.processes.postponedTable else kernel.processes.resumeTable) :
      Kernel }.Scheduled design cells := by
  have sound := scheduled.sound
  rw [rests] at sound
  have tabled := sound.tabled
  cases postponed with
  | false =>
    refine ⟨{ sound with tabled := ⟨fun q resumed => ?_, fun q inside => ?_⟩ }, scheduled.sensitive.congr rfl
      (fun _ state => state) (fun _ state => state) (fun _ => rfl), scheduled.resumed,
      fun _ _ _ at' => by simp at at', fun _ => rfl, fun now => by simp [Phase.runsPostponed] at now⟩
    · have before := tabled.resumed q resumed
      cases kind : (kernel.processes.proc q).postponed <;> simp_all [Phase.table]
    have known := tabled.bounded q
    simp only [List.nil_append, List.mem_append] at known
    simp only [Phase.table, List.append_nil, List.mem_append, Bool.false_eq_true, if_false] at inside
    exact known inside
  | true =>
    have quiet : kernel.processes.resumeTable = [] := other
    refine ⟨{ sound with tabled := ⟨fun q resumed => ?_, fun q inside => ?_⟩ }, scheduled.sensitive.congr rfl
      (fun _ state => state) (fun _ state => state) (fun _ => rfl), scheduled.resumed,
      fun _ _ _ at' => by simp at at', fun _ => quiet, fun _ => rfl⟩
    · have before := tabled.resumed q resumed
      cases kind : (kernel.processes.proc q).postponed <;> simp_all [Phase.table]
    have known := tabled.bounded q
    simp only [List.nil_append, List.mem_append] at known
    simp only [Phase.table, List.append_nil, List.mem_append, if_true] at inside
    exact known inside.symm

theorem Scheduled.update
    (at' : kernel.phase = .updateSignals) {signals : SignalState}
    (updated : updateSignals design kernel.now kernel.signals = .ok signals) :
    (({ kernel with signals }.resumeProcesses).callCallbacks .signalsUpdated).Scheduled design
      cells := by
  obtain ⟨lists, resumed⟩ := updateSignals_events updated
  have sound := scheduled.sound
  rw [at'] at sound
  have may : ∀ p ∈ signals.resumed, p < kernel.processes.count ∧
      (kernel.processes.proc p).state ≠ .delayed ∧ (kernel.processes.proc p).state ≠ .dead := by
    intro p inside
    rcases resumed p inside with old | ⟨sig, dynamic, member⟩
    · simp [scheduled.resumed] at old
    · exact scheduled.sensitive.resumable member
  obtain ⟨count, -, same⟩ := Processes.resumeProcesses_fields kernel.processes signals.resumed
  refine ⟨sound.resumeProcesses (fun p inside => (may p inside).1) fun p inside => (may p inside).2,
    ?_, rfl, fun _ _ _ at' => by simp [callCallbacks] at at', fun quiet => by
      simp [callCallbacks, Phase.gathers] at quiet, fun now => by
      simp [callCallbacks, Phase.runsPostponed] at now⟩
  show Sensitive design (signals.resumed.foldl Processes.resumeProcess kernel.processes) signals.eventList
  rw [lists]
  refine scheduled.sensitive.congr count (fun q => ?_) (fun q => ?_) fun q => ?_
  · rw [same]
    exact id
  · rw [same]
    exact id
  · rw [same]

theorem Scheduled.awake
    (at' : kernel.phase = .timeouts) {processes : Processes}
    (awaked : kernel.processes.awake kernel.now = .ok processes) :
    ∃ cells', ({ kernel with processes }.callCallbacks .startOfProcesses).Scheduled design cells' ∧
      Processes.Awakes kernel.now kernel.processes processes cells cells' := by
  have sound := scheduled.sound
  rw [at'] at sound
  obtain ⟨cells', sound', awakes⟩ := sound.awake_spec awaked
  have state : ∀ q, (processes.proc q).state = (kernel.processes.proc q).state ∨
      (kernel.processes.proc q).state = .delayed ∨
      (kernel.processes.proc q).state = .wait ∧ (processes.proc q).state = .timeout := by
    intro q
    have relinked := awakes.relinks q
    split at relinked
    · next both =>
      rw [relinked.state]
      rcases Processes.awaken_state kernel.now (awakes.suspended both.1 q both.2) with
        ⟨same, -, -⟩ | ⟨-, -, ⟨-, was⟩ | ⟨now, was⟩⟩
      · exact .inl same
      · exact .inr (.inl was)
      · exact .inr (.inr ⟨was, now⟩)
    · exact .inl relinked.state
  refine ⟨cells', ⟨sound', scheduled.sensitive.congr awakes.count (fun q was => ?_) (fun q was => ?_)
    fun q => ?_, scheduled.resumed, fun _ _ _ at' => by simp [callCallbacks] at at', fun quiet => by
      simp [callCallbacks, Phase.gathers] at quiet, fun now => by
      simp [callCallbacks, Phase.runsPostponed] at now⟩, awakes⟩
  · rcases state q with same | delayed | ⟨waits, -⟩
    · exact same.trans was
    · exact absurd (delayed.symm.trans was) (by simp)
    · exact absurd (waits.symm.trans was) (by simp)
  · rcases state q with same | delayed | ⟨-, now⟩
    · show (processes.proc q).state = _ ∨ (processes.proc q).state = _
      rwa [same]
    · rcases was with was | was <;> exact absurd (delayed.symm.trans was) (by simp)
    · exact .inr now
  · have relinked := awakes.relinks q
    show (processes.proc q).sensitivity = _
    rw [relinked.sensitivity]
    split
    · unfold Process.awaken
      split <;> rfl
    · rfl

/-- What the kernel does on its own keeps the processes scheduled, and the scan alone changes the
timeout chain. -/
theorem Scheduled.ticks
    (ticks : Ticks design kernel kernel') (unscanned : kernel.phase ≠ .timeouts) : kernel'.Scheduled design cells := by
  cases ticks with
  | cycle at' phase next =>
    refine scheduled.rest (.inl ?_) ?_ rfl rfl rfl fun _ => .inl ?_
    · simp [at', Phase.runs]
    · rcases next with ⟨left, rfl⟩ | rfl | rfl <;> rfl
    · simp [at', Phase.gathers]
  | callback hook kept left at' =>
    obtain ⟨callbacks, kept', same⟩ := returnCallback_eq kernel hook kept left
    rw [same]
    refine scheduled.rest (.inl ?_) rfl rfl rfl rfl ?_
    · simp [at', Phase.runs]
    · rw [at']
      exact fun quiet => .inl (by cases hook <;> simp_all [Phase.gathers])
  | nextTimeStep kept at' phase next =>
    refine scheduled.rest (.inl ?_) ?_ rfl rfl rfl fun _ => .inl ?_
    · simp [at', Phase.runs]
    · rcases next with rfl | rfl <;> rfl
    · simp [at', Phase.gathers]
  | timeCallback at' =>
    obtain ⟨callbacks, _, same, next⟩ := callTimeCallback_eq kernel
    rw [same]
    refine scheduled.rest (.inl ?_) ?_ rfl rfl rfl fun _ => .inl ?_
    · simp [at', Phase.runs]
    · rcases next with rfl | ⟨called, rfl⟩ <;> rfl
    · simp [at', Phase.gathers]
  | timeReturn at' =>
    refine scheduled.rest (.inl ?_) rfl rfl rfl rfl fun _ => .inl ?_
    · simp [at', Phase.runs]
    · simp [at', Phase.gathers]
  | update at' signals updated => exact scheduled.update at' updated
  | signalsUpdated kept at' =>
    refine scheduled.rest (.inl ?_) rfl rfl rfl rfl fun quiet => ?_
    · simp [at', Phase.runs]
    · simp [Phase.gathers] at quiet
  | awake at' => exact absurd at' unscanned
  | startOfProcesses kept at' ranProcesses =>
    exact scheduled.start (by simp [at', Phase.table]) false ranProcesses trivial
  | firstPostponed at' initial ranProcesses =>
    exact scheduled.start (by simp [at', Phase.table]) true ranProcesses
      (scheduled.gathered (by simp [at', Phase.gathers]))
  | ran postponed at' initial =>
    refine scheduled.rest (.inr ?_) rfl rfl rfl rfl fun _ => .inl ?_
    · simp [at', Phase.table]
    · simp [at', Phase.gathers]
  | ends start middle at' tn computed kernel' finish =>
    have same : middle.phase = kernel.phase ∧ middle.processes = kernel.processes ∧
        middle.signals.eventList = kernel.signals.eventList ∧
        middle.signals.resumed = kernel.signals.resumed := by
      obtain ⟨frame, next⟩ := computeNextTime_frame computed
      rw [frame]
      rcases at' with ⟨rfl, -⟩ | ⟨rfl, -⟩
      all_goals exact ⟨rfl, rfl, next.eventList, next.resumed⟩
    have rests : kernel.phase.table = [] ∧ kernel.phase.gathers = false := by
      rcases at' with ⟨-, at' | at' | ⟨kept, at'⟩⟩ | ⟨-, kept, at'⟩ <;> rw [at'] <;> exact ⟨rfl, rfl⟩
    obtain ⟨phase, processes, lists, resumed⟩ := same
    have quiet := scheduled.gathered rests.2
    cases finish with
    | postponed running later =>
      have before : middle.Scheduled design cells := by
        obtain ⟨sound, sensitive, resumed', running', gathered, postponed⟩ := scheduled
        rw [← processes, ← phase] at sound running' gathered postponed
        rw [← processes, ← lists] at sensitive
        exact ⟨sound, sensitive, resumed.trans resumed', running', gathered, postponed⟩
      have started := before.start (phase ▸ rests.1) true true (processes ▸ quiet)
      exact ⟨started.sound, started.sensitive, started.resumed, started.running, started.gathered, started.postponed⟩
    | delta running same =>
      have ended : middle.endDelta.phase.runs = false ∧ middle.endDelta.processes = middle.processes ∧
          middle.endDelta.signals = middle.signals := by
        unfold endDelta
        split <;> exact ⟨rfl, rfl, rfl⟩
      obtain ⟨rests', processes', signals⟩ := ended
      exact scheduled.rest (.inr rests.1) rests' (processes'.trans processes)
        (by rw [signals, lists]) (by rw [signals, resumed]) fun _ => .inr quiet
    | initialization initial =>
      refine scheduled.rest (.inr rests.1) rfl processes ?_ ?_ fun _ => .inr quiet
      · rw [← lists]
        show (if tn ≠ 0 then _ else _ : SignalState).eventList = _
        split <;> rfl
      · rw [← resumed]
        show (if tn ≠ 0 then _ else _ : SignalState).resumed = _
        split <;> rfl
    | lastKnownDelta | endOfTimeStep | timeStep =>
      exact scheduled.rest (.inr rests.1) rfl processes lists resumed fun _ => .inr quiet

end

variable {postponed : Bool} {table : List ProcId}

section

variable (scheduled : kernel.Scheduled design cells)
include scheduled

theorem Scheduled.runs {p : ProcId} (at' : kernel.phase = .runProcesses postponed (p :: table))
    (resumed : (kernel.processes.proc p).resumed = true) (runs : RunsProcess kernel postponed p table kernel') :
    ∃ cells' state sensitivity, kernel'.Scheduled design cells' ∧
      Processes.Runs p state sensitivity kernel.processes kernel'.processes cells cells' ∧
      state ≠ .timeout ∧ kernel'.phase.table = table := by
  have sound := scheduled.sound
  rw [at'] at sound
  have sound : kernel.processes.Sound cells (p :: table) := sound
  have known := sound.tabled.bounded p (by simp)
  have quiet := scheduled.gathered (by simp [at', Phase.gathers])
  have postpone : postponed = true → kernel.processes.postponedTable = [] := fun now =>
    scheduled.postponed (by simp [at', Phase.runsPostponed, now])
  have static : ∀ sig, ⟨false, p⟩ ∈ kernel.signals.eventList sig →
      (kernel.processes.proc p).state = .sensitized := fun sig member =>
    (scheduled.sensitive.static sig p member).2.2
  cases runs with
  | again waits =>
    obtain ⟨sound', runs⟩ := @Processes.Sound.run _ cells table p sound
      (fun proc => { proc with resumed := false, state := .wait }) (fun _ => ⟨rfl, rfl⟩)
      (fun _ => ⟨rfl, rfl, rfl⟩) (fun _ => rfl) waits.symm (by simp [waits])
    refine ⟨cells, _, _, ⟨sound', scheduled.sensitive.update p rfl runs.others (fun _ _ _ => rfl)
      (fun sig member => runs.state.trans (static sig member)) (fun sig => ?_) fun _ => ⟨known, ?_⟩,
      scheduled.resumed, fun _ _ _ at' => by simp at at', fun _ => quiet, postpone⟩, runs,
      by simp [waits], rfl⟩
    · exact (scheduled.sensitive.dynamic sig p).trans (by rw [runs.sensitivity])
    · exact .inl (runs.state.trans waits)
  | close waits processes closed =>
    obtain ⟨sound', runs⟩ := sound.close closed
    have lists : ∀ sig cell, (((kernel.processes.proc p).sensitivity.foldl
        (fun eventList sig => Function.update eventList sig ((eventList sig).erase ⟨true, p⟩))
        kernel.signals.eventList) sig).count cell =
        (kernel.signals.eventList sig).count cell -
          if cell = ⟨true, p⟩ then (kernel.processes.proc p).sensitivity.count sig else 0 :=
      fun sig cell => count_removeSensitivity _ p _ sig cell
    refine ⟨cells.erase p, _, _, ⟨sound', scheduled.sensitive.update p runs.count runs.others
      (fun sig cell other => ?_) (fun sig member => ?_) (fun sig => ?_) (fun some => ?_),
      scheduled.resumed, fun q _ _ at' => ?_, fun _ => runs.resumeTable.trans quiet, fun now =>
        runs.postponedTable.trans (postpone now)⟩, runs, by simp, rfl⟩
    · exact (lists sig cell).trans (by rw [if_neg other, Nat.sub_zero])
    · have sensitized := static sig member
      rcases waits with waits | waits <;> exact absurd (waits.symm.trans sensitized) (by simp)
    · refine (lists sig ⟨true, p⟩).trans ?_
      rw [if_pos rfl, scheduled.sensitive.dynamic, runs.sensitivity, Nat.sub_self, List.count_nil]
    · exact absurd runs.sensitivity some
    · simp only [Phase.process.injEq] at at'
      obtain ⟨rfl, -, -⟩ := at'
      exact ⟨⟨sound.chain.nodup.not_mem_erase, runs.idle, runs.count ▸ known⟩, .inl runs.state⟩
  | ready other =>
    obtain ⟨sound', runs⟩ := @Processes.Sound.run _ cells table p sound
      (fun proc => { proc with resumed := false }) (fun _ => ⟨rfl, rfl⟩)
      (fun _ => ⟨rfl, rfl, rfl⟩) (fun _ => rfl) rfl other.2
    have state : (kernel.processes.proc p).state = .ready ∨
        (kernel.processes.proc p).state = .sensitized := by
      have awake := sound.awake p resumed
      cases now : (kernel.processes.proc p).state <;> simp_all
    refine ⟨cells, _, _, ⟨sound', scheduled.sensitive.update p rfl runs.others (fun _ _ _ => rfl)
      (fun sig member => runs.state.trans (static sig member)) (fun sig => ?_) (fun some => ?_),
      scheduled.resumed, fun q _ _ at' => ?_, fun _ => quiet, postpone⟩, runs, other.2, rfl⟩
    · exact (scheduled.sensitive.dynamic sig p).trans (by rw [runs.sensitivity])
    · exact absurd (runs.sensitivity.trans (scheduled.sensitive.idle other)) some
    · simp only [Phase.process.injEq] at at'
      obtain ⟨rfl, -, -⟩ := at'
      refine ⟨⟨fun inside => ?_, runs.idle, known⟩, ?_⟩
      · rcases sound.suspended p inside with now | now | now <;>
          rcases state with was | was <;> exact absurd (now.symm.trans was) (by simp)
      · rw [runs.state]
        exact state

theorem Scheduled.suspended {p : ProcId} (at' : kernel.phase = .process p postponed table)
    {cells' : List ProcId} {time : Option Int} {state : ProcessState} {sensitivity : List SignalId}
    {processes : Processes} {eventList : SignalId → List ActionCell} (sound : processes.Sound cells' table)
    (suspends : Processes.Suspends kernel.now p time state sensitivity kernel.processes processes cells cells')
    (lists : ∀ sig cell, cell ≠ ⟨true, p⟩ → (eventList sig).count cell = (kernel.signals.eventList sig).count cell)
    (static : ∀ sig, ⟨false, p⟩ ∈ kernel.signals.eventList sig → state = .sensitized)
    (dynamic : ∀ sig, (eventList sig).count ⟨true, p⟩ = sensitivity.count sig)
    (waiting : sensitivity ≠ [] → state = .wait) :
    { kernel with
      processes
      signals := { kernel.signals with eventList }
      phase := .runProcesses postponed table : Kernel }.Scheduled design cells' := by
  have known := (scheduled.running p postponed table at').1.known
  refine ⟨sound, scheduled.sensitive.update p suspends.count suspends.others lists
    (fun sig member => suspends.state.trans (static sig member)) (fun sig => ?_) (fun some => ?_),
    scheduled.resumed, fun _ _ _ at' => by simp at at', fun _ => ?_, fun now => ?_⟩
  · rw [suspends.sensitivity]
    exact dynamic sig
  · rw [suspends.sensitivity] at some
    exact ⟨known, .inl (suspends.state.trans (waiting some))⟩
  · exact suspends.resumeTable.trans (scheduled.gathered (by simp [at', Phase.gathers]))
  · refine suspends.postponedTable.trans (scheduled.postponed ?_)
    rw [at']
    exact now

theorem Scheduled.suspends {p : ProcId} (at' : kernel.phase = .process p postponed table)
    {suspension : Suspension} (may : kernel.maySuspend design p suspension = true)
    (result : kernel.suspend p suspension = .ok kernel') : ∃ cells' state sensitivity,
      { kernel' with phase := .runProcesses postponed table }.Scheduled design cells' ∧
      Processes.Suspends kernel.now p suspension.time state sensitivity kernel.processes
        kernel'.processes cells cells' ∧ state ≠ .timeout := by
  obtain ⟨running, state⟩ := scheduled.running p postponed table at'
  have sound := scheduled.sound
  rw [at'] at sound
  have sound : kernel.processes.Sound cells table := sound
  have none : (kernel.processes.proc p).sensitivity = [] :=
    scheduled.sensitive.idle (by rcases state with state | state <;> simp [state])
  have dynamic : ∀ sig, (kernel.signals.eventList sig).count ⟨true, p⟩ = 0 := fun sig => by
    rw [scheduled.sensitive.dynamic, none, List.count_nil]
  have static : ∀ sig, ⟨false, p⟩ ∈ kernel.signals.eventList sig →
      (kernel.processes.proc p).state = .sensitized := fun sig member =>
    (scheduled.sensitive.static sig p member).2.2
  cases suspension with
  | wait timeout sensitivity =>
    obtain ⟨waiting, processes, started, suspended, rfl⟩ := suspend_wait result
    obtain ⟨other, cells', sound', suspends⟩ :=
      Processes.wait_spec sensitivity.reverse sound running started suspended
    rw [none, List.append_nil] at suspends
    refine ⟨cells', _, _, scheduled.suspended at' sound' suspends (fun sig cell different => ?_)
      (fun sig member => absurd (static sig member) other) (fun sig => ?_) fun _ => rfl, suspends,
      by simp⟩
    · rw [List.count_append, List.count_replicate, if_neg (by simpa using Ne.symm different), Nat.zero_add]
    · rw [List.count_append, List.count_replicate_self, dynamic, List.count_reverse]
      rfl
  | waitFor time =>
    obtain ⟨processes, suspended, result⟩ := bind_ok.mp result
    obtain ⟨other, cells', sound', suspends⟩ := Processes.waitTimeout_spec sound running suspended
    rw [none] at suspends
    rw [← Except.ok.inj result]
    exact ⟨cells', _, _, scheduled.suspended at' sound' suspends (fun _ _ _ => rfl)
      (fun sig member => absurd (static sig member) other) dynamic (fun some => absurd rfl some),
      suspends, by simp⟩
  | waitExit =>
    obtain ⟨processes, suspended, result⟩ := bind_ok.mp result
    obtain ⟨other, sound', suspends⟩ := Processes.waitExit_spec kernel.now sound running suspended
    rw [none] at suspends
    rw [← Except.ok.inj result]
    exact ⟨cells, _, _, scheduled.suspended at' sound' suspends (fun _ _ _ => rfl)
      (fun sig member => absurd (static sig member) other) dynamic (fun some => absurd rfl some),
      suspends, by simp⟩
  | delay del =>
    obtain ⟨sound', suspends⟩ := Processes.processDelay_spec kernel.now del sound running
    rw [none] at suspends
    rw [← Except.ok.inj result]
    refine ⟨p :: cells, _, _, scheduled.suspended at' sound' suspends (fun _ _ _ => rfl)
      (fun sig member => ?_) dynamic (fun some => absurd rfl some), suspends, by simp⟩
    have sensitive : kernel.hasSensitivity design p = true :=
      List.any_eq_true.mpr ⟨sig, List.mem_range.mpr (scheduled.sensitive.static sig p member).1,
        by simpa using member⟩
    simp [maySuspend, sensitive] at may
  | finish =>
    have suspends : Processes.Suspends kernel.now p (Suspension.time .finish)
        (kernel.processes.proc p).state [] kernel.processes kernel.processes cells cells :=
      ⟨rfl, fun q _ => ⟨_, _, rfl⟩, rfl, rfl, none, rfl, rfl, .inl ⟨rfl, rfl⟩⟩
    rw [← Except.ok.inj result]
    exact ⟨cells, _, _, scheduled.suspended at' sound suspends (fun _ _ _ => rfl) static dynamic
      (fun some => absurd rfl some), suspends, by rcases state with state | state <;> simp [state]⟩

theorem Scheduled.frame
    (processes : kernel'.processes = kernel.processes) (phase : kernel'.phase = kernel.phase)
    (lists : kernel'.signals.eventList = kernel.signals.eventList)
    (resumed : kernel'.signals.resumed = kernel.signals.resumed) : kernel'.Scheduled design cells := by
  obtain ⟨sound, sensitive, resumed', running, gathered, postponed⟩ := scheduled
  rw [← processes, ← phase] at sound running gathered postponed
  rw [← processes, ← lists] at sensitive
  exact ⟨sound, sensitive, resumed.trans resumed', running, gathered, postponed⟩

end

/-- A step of a callback changes the callbacks and the values to force only. -/
theorem callbackCall_frame (kernel : Kernel) (call : CallbackCall) :
    kernel.callbackCall call = { kernel with
      callbacks := (kernel.callbackCall call).callbacks
      signals := { kernel.signals with
        forceValues := (kernel.callbackCall call).signals.forceValues } } := by
  cases call <;> rfl

theorem Scheduled.step {label : Label} (scheduled : kernel.Scheduled design cells)
    (enabled : kernel.enabled design label = true) (result : kernel.step design label = .ok kernel') :
    ∃ cells', kernel'.Scheduled design cells' := by
  cases label with
  | tick =>
    have ticks := tick_cases enabled result
    by_cases scans : kernel.phase = .timeouts
    · cases ticks with
      | awake at' processes awaked =>
        obtain ⟨cells', scheduled', -⟩ := scheduled.awake at' awaked
        exact ⟨cells', scheduled'⟩
      | _ => simp_all
    · exact ⟨cells, scheduled.ticks ticks scans⟩
  | run again =>
    obtain ⟨postponed, p, table, at', resumed, runs⟩ := runProcess_cases enabled result
    obtain ⟨cells', _, _, scheduled', -⟩ := scheduled.runs at' resumed runs
    exact ⟨cells', scheduled'⟩
  | call call =>
    simp only [Kernel.step] at result
    split at result
    · obtain ⟨signals, called, result⟩ := bind_ok.mp result
      have frame := processCall_frame called
      rw [← Except.ok.inj result]
      exact ⟨cells, scheduled.frame rfl rfl frame.eventList frame.resumed⟩
    · exact ⟨cells, Except.ok.inj result ▸ scheduled⟩
  | suspend suspension =>
    simp only [Kernel.step] at result
    split at result
    · next p postponed table at' =>
      obtain ⟨middle, suspended, result⟩ := bind_ok.mp result
      have may : kernel.maySuspend design p suspension = true := by
        simpa [Kernel.enabled, at'] using enabled
      obtain ⟨cells', _, _, scheduled', -⟩ := scheduled.suspends at' may suspended
      exact ⟨cells', Except.ok.inj result ▸ scheduled'⟩
    · exact ⟨cells, Except.ok.inj result ▸ scheduled⟩
  | callback call =>
    rw [← Except.ok.inj result, callbackCall_frame]
    exact ⟨cells, scheduled.frame rfl rfl rfl rfl⟩

end Kernel

namespace Setup

/-- What registering processes keeps. -/
structure Registered (design : Design) (procs : Processes) (signals : SignalState) : Prop where
  tables : procs.resumeTable = [] ∧ procs.postponedTable = []
  chain : procs.timeoutChain = none ∧ procs.firstTimeout = StdTime.last
  records : ∀ p, (procs.proc p).chainNext = none ∧ (procs.proc p).chainPrev = none ∧
    (procs.proc p).resumed = false ∧ (procs.proc p).sensitivity = []
  states : ∀ p, (procs.proc p).state ≠ .timeout ∧
    (p < procs.count → (procs.proc p).state = .ready ∨ (procs.proc p).state = .sensitized)
  lists : ∀ sig dynamic p, ⟨dynamic, p⟩ ∈ signals.eventList sig → dynamic = false ∧
    sig < design.count ∧ p < procs.count ∧ (procs.proc p).state = .sensitized
  resumed : signals.resumed = []

variable {design : Design} {setup : Setup}

theorem mem_connect {eventList : SignalId → List ActionCell} {sensitivity : List SignalId}
    {proc : ProcId} {sig : SignalId} {cell : ActionCell} (member : cell ∈ sensitivity.foldl
      (fun eventList sig => Function.update eventList sig (⟨false, proc⟩ :: eventList sig)) eventList sig) :
    cell ∈ eventList sig ∨ cell = ⟨false, proc⟩ ∧ sig ∈ sensitivity := by
  induction sensitivity generalizing eventList with
  | nil => exact .inl member
  | cons other sensitivity ih =>
    rcases ih member with before | ⟨new, inside⟩
    · dsimp only at before
      by_cases here : sig = other
      · subst here
        rw [Function.update_self, List.mem_cons] at before
        exact before.symm.imp_right fun new => ⟨new, List.mem_cons_self⟩
      · rw [Function.update_of_ne here] at before
        exact .inl before
    · exact .inr ⟨new, List.mem_cons_of_mem other inside⟩

theorem register_registered (wellFormed : setup.WellFormed design) :
    Registered design (setup.register design).1 (setup.register design).2 := by
  have base : Registered design noProcesses (createSignals design setup) := by
    have lists : (createSignals design setup).eventList = fun _ => [] := (AssignFrame.insertFutures _ _).eventList
    refine ⟨⟨rfl, rfl⟩, ⟨rfl, rfl⟩, fun _ => ⟨rfl, rfl, rfl, rfl⟩, fun p => ⟨by simp [noProcesses],
      fun known => absurd known (Nat.not_lt_zero p)⟩, fun _ _ _ member => ?_,
      (AssignFrame.insertFutures _ _).resumed⟩
    simp [lists] at member
  unfold register
  have inside := wellFormed.sensitivity
  generalize setup.processes = decls at inside
  generalize noProcesses = procs at base
  generalize createSignals design setup = signals at base
  induction decls generalizing procs signals with
  | nil => exact base
  | cons decl decls ih =>
    rw [List.foldl_cons]
    refine ih (fun decl member => inside decl (List.mem_cons_of_mem _ member)) _ _ ?_
    have others : ∀ q, q ≠ procs.count → (decl.register procs).proc q = procs.proc q := fun q other =>
      Function.update_of_ne other _ _
    have self : (decl.register procs).proc procs.count = ⟨false, decl.postponed,
        if decl.sensitivity.isSome then .sensitized else .ready, StdTime.bad, none, none, []⟩ :=
      Function.update_self _ _ _
    refine ⟨base.tables, base.chain, fun q => ?_, fun q => ?_, fun sig dynamic q member => ?_, base.resumed⟩
    · by_cases here : q = procs.count
      · rw [here, self]
        exact ⟨rfl, rfl, rfl, rfl⟩
      · rw [others q here]
        exact base.records q
    · by_cases here : q = procs.count
      · rw [here, self]
        cases decl.sensitivity <;> simp
      · rw [others q here]
        refine ⟨(base.states q).1, fun known => (base.states q).2 ?_⟩
        exact Nat.lt_of_le_of_ne (Nat.lt_succ_iff.mp known) here
    · rcases mem_connect member with old | ⟨new, listed⟩
      · obtain ⟨static, known, registered, state⟩ := base.lists sig dynamic q old
        rw [others q (ne_of_lt registered)]
        exact ⟨static, known, Nat.lt_succ_of_lt registered, state⟩
      obtain ⟨rfl, rfl⟩ := ActionCell.mk.inj new
      refine ⟨rfl, inside decl List.mem_cons_self sig listed, Nat.lt_succ_self _, ?_⟩
      rw [self]
      cases listed' : decl.sensitivity with
      | none => simp [listed'] at listed
      | some sensitivity => rfl

theorem kernel_scheduled (wellFormed : setup.WellFormed design) : (setup.kernel design).Scheduled design [] := by
  have registered := register_registered wellFormed
  have sound : (setup.register design).1.Sound [] [] := by
    refine ⟨?_, by simp, by simp, ⟨fun q resumed => ?_, fun q inside => ?_⟩, fun q resumed => ?_,
      fun q expired => absurd expired (registered.states q).1, by simp⟩
    · unfold Processes.Chain
      rw [registered.chain.1]
      exact Doubly.empty fun q => ⟨(registered.records q).1, (registered.records q).2.1⟩
    · simp [(registered.records q).2.2.1] at resumed
    · simp [registered.tables] at inside
    · simp [(registered.records q).2.2.1] at resumed
  obtain ⟨count, -, same⟩ := Processes.resumeProcesses_fields (setup.register design).1
    (List.range (setup.register design).1.count)
  refine ⟨sound.resumeProcesses (fun q inside => List.mem_range.mp inside) fun q inside => ?_,
    ⟨fun sig q member => ?_, fun sig q => ?_, fun q some => ?_⟩, ?_, fun _ _ _ at' => by
      simp [kernel] at at', fun quiet => by simp [kernel, Phase.gathers] at quiet, fun now => by
      simp [kernel, Phase.runsPostponed] at now⟩
  · rcases (registered.states q).2 (List.mem_range.mp inside) with state | state <;> simp [state]
  · obtain ⟨-, inside, known, state⟩ := registered.lists sig false q member
    exact ⟨inside, count.symm ▸ known, by rw [kernel, same]; exact state⟩
  · have none : (setup.kernel design).signals.eventList sig = (setup.register design).2.eventList sig := rfl
    rw [none, kernel, same, (registered.records q).2.2.2, List.count_nil, List.count_eq_zero]
    intro member
    have static := (registered.lists sig true q member).1
    exact absurd static (by simp)
  · rw [kernel, same] at some
    exact absurd (registered.records q).2.2.2 some
  · exact registered.resumed

end Setup

end Ghdl.Grt
