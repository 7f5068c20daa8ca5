import Ghdl.Grt.ResumeTables
import Ghdl.Grt.Timeouts
import Ghdl.System.Recording

/-!
# Resumptions and runs

How often each process is resumed and how often it is run, in each cycle and at each time. A nonpostponed
process is run in the cycle in which it is resumed, and a postponed one in the last cycle of the time at which
it is resumed, unless callbacks at the end of the time step make another cycle follow at the same time.
-/

namespace Ghdl.Grt

open Fallible Transition

/-- How often each process has been resumed and run. -/
structure Tally where
  /-- The calls of `Resume_Process` that put a process in its table. -/
  resumed : ProcId → Nat
  /-- The calls of the procedure of a process. -/
  run : ProcId → Nat

/-- The next process to be run is this one. -/
def Kernel.runsNext (kernel : Kernel) : Label → ProcId → Bool
  | .run _, p =>
    match kernel.phase with
    | .runProcesses _ (q :: _) => q = p
    | _ => false
  | _, _ => false

namespace Tally

/-- Nothing has happened. -/
def empty : Tally := ⟨fun _ => 0, fun _ => 0⟩

/-- A step has been taken. -/
def add (tally : Tally) (kernel : Kernel) (label : Label) (kernel' : Kernel) : Tally where
  resumed p := tally.resumed p +
    if (kernel.processes.proc p).resumed = false ∧ (kernel'.processes.proc p).resumed = true then 1 else 0
  run p := tally.run p + if kernel.runsNext label p then 1 else 0

end Tally

/-- The callbacks at the end of the time step have been called, and the next cycle is at the same time. -/
def Kernel.repeats (kernel : Kernel) (label : Label) (kernel' : Kernel) : Bool :=
  match label, kernel.phase with
  | .tick, .hook .endOfTimeStep _ 0 => kernel'.nextTime = kernel.now
  | _, _ => false

/-- What has happened in the current cycle, and in the cycles at the current time. -/
structure History where
  /-- In the current cycle, or in the initialization. -/
  cycle : Tally
  /-- At the current time, the initialization left out. -/
  time : Tally
  /-- A cycle at the current time has followed the callbacks at the end of its time step. -/
  repeats : Bool

/-- A step has been taken: a cycle starts, maybe at another time, or something happens in it. -/
def History.record (kernel : Kernel) (label : Label) (kernel' : Kernel) (history : History) : History :=
  match label, kernel.phase with
  | .tick, .simulationCycle =>
    { cycle := .empty
      time := if kernel.nextTime = kernel.now then history.time else .empty
      repeats := kernel.nextTime = kernel.now && history.repeats }
  | _, _ =>
    { cycle := history.cycle.add kernel label kernel'
      time := if kernel.initialization then history.time else history.time.add kernel label kernel'
      repeats := history.repeats || kernel.repeats label kernel' }

/-- Something happens in a cycle. -/
abbrev History.within (history : History) (kernel : Kernel) (label : Label) (kernel' : Kernel) : History where
  cycle := history.cycle.add kernel label kernel'
  time := if kernel.initialization then history.time else history.time.add kernel label kernel'
  repeats := history.repeats || kernel.repeats label kernel'

/-- A process has been run once less than it has been resumed while it is to be run, and as often
otherwise; and it has been resumed once at most. -/
def Tally.Balances (tally : Tally) (procs : Processes) (p : ProcId) : Prop :=
  tally.resumed p = tally.run p + (if (procs.proc p).resumed then 1 else 0) ∧ tally.resumed p ≤ 1

namespace Tally

variable {tally : Tally} {kernel kernel' : Kernel} {label : Label} {p : ProcId}

theorem add_run (quiet : ∀ again, label ≠ .run again) : (tally.add kernel label kernel').run p = tally.run p := by
  have none : kernel.runsNext label p = false := by
    unfold Kernel.runsNext
    split
    · exact absurd rfl (quiet _)
    · rfl
  simp [add, none]

theorem balances_empty {procs : Processes} (idle : (procs.proc p).resumed = false) : empty.Balances procs p := by
  simp [Balances, empty, idle]

theorem Balances.resume (balances : tally.Balances kernel.processes p) (quiet : ∀ again, label ≠ .run again)
    (raises : (kernel.processes.proc p).resumed = true → (kernel'.processes.proc p).resumed = true)
    (unrun : (kernel'.processes.proc p).resumed = (kernel.processes.proc p).resumed ∨ tally.run p = 0) :
    (tally.add kernel label kernel').Balances kernel'.processes p := by
  obtain ⟨owed, once⟩ := balances
  unfold Balances
  rw [add_run quiet]
  simp only [add]
  cases before : (kernel.processes.proc p).resumed with
  | true => simp_all
  | false => cases after : (kernel'.processes.proc p).resumed <;> simp_all

theorem Balances.run {q : ProcId} {postponed : Bool} {table : List ProcId} {again : Bool}
    (balances : tally.Balances kernel.processes p) (at' : kernel.phase = .runProcesses postponed (q :: table))
    (resumed : (kernel.processes.proc q).resumed = true) (idle : (kernel'.processes.proc q).resumed = false)
    (others : p ≠ q → (kernel'.processes.proc p).resumed = (kernel.processes.proc p).resumed) :
    (tally.add kernel (.run again) kernel').Balances kernel'.processes p := by
  obtain ⟨owed, once⟩ := balances
  have next : kernel.runsNext (.run again) p = decide (q = p) := by simp [Kernel.runsNext, at']
  unfold Balances
  simp only [add, next]
  by_cases same : p = q
  · subst same
    simp_all
  · have different : q ≠ p := Ne.symm same
    have kept := others same
    cases flag : (kernel.processes.proc p).resumed <;> simp_all

end Tally

namespace Phase

/-- The nonpostponed processes of the cycle have not been run yet. -/
def precedes : Phase → Bool
  | .hook .nextTimeStep _ _ | .hook .signalsUpdated _ _ | .hook .startOfProcesses _ _ | .afterDelay _
  | .updateSignals | .timeouts => true
  | _ => false

/-- The processes of the cycle have been run, and the next time is not known for good. -/
def settles : Phase → Bool
  | .computeNextTime | .hook .lastKnownDelta _ _ => true
  | _ => false

theorem rests_of_settles {phase : Phase} (at' : phase.settles = true) : phase.table = [] ∧ phase.gathers = false := by
  unfold settles at at'
  split at at'
  · exact ⟨rfl, rfl⟩
  · exact ⟨rfl, rfl⟩
  · simp at at'

end Phase

namespace Kernel

variable {design : Design} {kernel kernel' : Kernel} {cells : List ProcId} {history : History}

/-- Time goes on with the next cycle. -/
def advances (kernel : Kernel) : Prop := kernel.phase = .simulationCycle ∧ kernel.nextTime ≠ kernel.now

/-- What holds of the processes and of what has happened to them. -/
structure Tallied (kernel : Kernel) (history : History) : Prop where
  /-- Nonpostponed processes in each cycle, and all processes in the initialization. -/
  cycle : ∀ p, (kernel.processes.proc p).postponed = false ∨ kernel.initialization = true →
    history.cycle.Balances kernel.processes p
  /-- No process has been run before its turn. -/
  unrun : kernel.phase.precedes = true → ∀ p, history.cycle.run p = 0
  /-- Every process is resumed when the initialization starts. -/
  all : kernel.initialization = true → ∀ p < kernel.processes.count, history.cycle.resumed p = 1
  /-- The time is not looked at in the initialization. -/
  started : kernel.initialization = true → history.time = .empty
  /-- Postponed processes at each time. -/
  time : kernel.initialization = false → history.repeats = false →
    ∀ p, (kernel.processes.proc p).postponed = true → history.time.Balances kernel.processes p
  /-- No postponed process has been run before the last cycle of the time. -/
  waits : kernel.initialization = false → history.repeats = false →
    ¬(kernel.phase.runsPostponed = true ∨ kernel.phase.endsTimeStep = true ∨ kernel.advances) →
    ∀ p, (kernel.processes.proc p).postponed = true → history.time.run p = 0
  /-- At the end, no postponed process is to be run. -/
  done : kernel.phase.endsTimeStep = true ∨ kernel.advances ∨
    kernel.initialization = true ∧ kernel.phase.settles = true → kernel.processes.postponedTable = []

/-- No process is resumed by a step of the kernel on its own, the update of the signals and the scan
excepted, and none changes its kind. -/
theorem Ticks.records (ticks : Ticks design kernel kernel') (update : kernel.phase ≠ .updateSignals)
    (scan : kernel.phase ≠ .timeouts) : kernel'.processes.proc = kernel.processes.proc ∧
      kernel'.processes.count = kernel.processes.count := by
  cases ticks with
  | callback hook kept left at' =>
    unfold returnCallback
    split <;> exact ⟨rfl, rfl⟩
  | timeCallback at' =>
    unfold callTimeCallback
    split
    · exact ⟨rfl, rfl⟩
    · split <;> exact ⟨rfl, rfl⟩
  | update at' => exact absurd at' update
  | awake at' => exact absurd at' scan
  | ends start middle at' tn computed kernel' finish =>
    have same : middle.processes = kernel.processes := by
      obtain ⟨frame, -⟩ := computeNextTime_frame computed
      rw [frame]
      rcases at' with ⟨rfl, -⟩ | ⟨rfl, -⟩ <;> rfl
    rw [← same]
    cases finish with
    | delta =>
      unfold endDelta
      split <;> exact ⟨rfl, rfl⟩
    | lastKnownDelta | initialization | postponed | endOfTimeStep | timeStep => exact ⟨rfl, rfl⟩
  | cycle | nextTimeStep | timeReturn | signalsUpdated | startOfProcesses | firstPostponed | ran =>
    exact ⟨rfl, rfl⟩

/-- The update of the signals and the scan only resume processes. -/
theorem Ticks.resumes (ticks : Ticks design kernel kernel') (scheduled : kernel.Scheduled design cells)
    (at' : kernel.phase = .updateSignals ∨ kernel.phase = .timeouts) :
    (∀ p, (kernel'.processes.proc p).postponed = (kernel.processes.proc p).postponed ∧
      ((kernel.processes.proc p).resumed = true → (kernel'.processes.proc p).resumed = true)) ∧
      kernel'.processes.count = kernel.processes.count ∧ kernel'.initialization = kernel.initialization ∧
      ∃ left, kernel'.phase = .hook .signalsUpdated 0 left ∨ kernel'.phase = .hook .startOfProcesses 0 left := by
  cases ticks with
  | update at'' signals updated =>
    obtain ⟨count, -, same⟩ := Processes.resumeProcesses_fields kernel.processes signals.resumed
    refine ⟨fun p => ?_, count, rfl, _, .inl rfl⟩
    rw [callCallbacks, resumeProcesses, same]
    exact ⟨rfl, fun before => by simp [before]⟩
  | awake at'' processes awaked =>
    obtain ⟨cells', -, awakes⟩ := scheduled.awake at'' awaked
    refine ⟨fun p => ?_, awakes.count, rfl, _, .inr rfl⟩
    have relinked := awakes.relinks p
    show (processes.proc p).postponed = _ ∧ (_ → (processes.proc p).resumed = true)
    rw [relinked.postponed, relinked.resumed]
    split
    · unfold Process.awaken
      split
      · exact ⟨rfl, fun _ => rfl⟩
      · exact ⟨rfl, id⟩
    · exact ⟨rfl, id⟩
  | ends start middle ends =>
    rcases ends with ⟨-, other | other | ⟨kept, other⟩⟩ | ⟨-, kept, other⟩ <;>
      rcases at' with at' | at' <;> exact absurd (other.symm.trans at') (by simp)
  | _ => rcases at' with at' | at' <;> simp_all

/-- Where no process is being run, a process is not to be run unless it is in the table of its kind. -/
theorem Scheduled.idle (scheduled : kernel.Scheduled design cells) (rests : kernel.phase.table = [])
    (quiet : kernel.phase.gathers = false) {p : ProcId}
    (kind : (kernel.processes.proc p).postponed = false ∨ kernel.processes.postponedTable = []) :
    (kernel.processes.proc p).resumed = false := by
  by_contra resumed
  have tabled := scheduled.sound.tabled.resumed p (by simpa using resumed)
  rw [rests, scheduled.gathered quiet] at tabled
  rcases kind with kind | none
  · simp [kind] at tabled
  · simp [none] at tabled

namespace Tallied

/-- A step after which the same processes are to be run, or more of them before their turn. -/
theorem keep {label : Label} (tallied : kernel.Tallied history) (quiet : ∀ again, label ≠ .run again)
    (records : ∀ p, (kernel'.processes.proc p).postponed = (kernel.processes.proc p).postponed ∧
      ((kernel.processes.proc p).resumed = true → (kernel'.processes.proc p).resumed = true))
    (count : kernel'.processes.count = kernel.processes.count)
    (initialization : kernel'.initialization = kernel.initialization)
    (still : (∀ p, (kernel'.processes.proc p).resumed = (kernel.processes.proc p).resumed) ∨
      kernel.initialization = false ∧ (kernel.phase = .updateSignals ∨ kernel.phase = .timeouts))
    (precedes : kernel'.phase.precedes = true → kernel.phase.precedes = true)
    (waits : kernel.initialization = false → kernel.repeats label kernel' = false →
      ¬(kernel'.phase.runsPostponed = true ∨ kernel'.phase.endsTimeStep = true ∨ kernel'.advances) →
      ¬(kernel.phase.runsPostponed = true ∨ kernel.phase.endsTimeStep = true ∨ kernel.advances))
    (done : kernel'.phase.endsTimeStep = true ∨ kernel'.advances ∨
      kernel'.initialization = true ∧ kernel'.phase.settles = true → kernel'.processes.postponedTable = []) :
    kernel'.Tallied (history.within kernel label kernel') := by
  have early : kernel.phase = .updateSignals ∨ kernel.phase = .timeouts →
      kernel.phase.precedes = true ∧ ¬(kernel.phase.runsPostponed = true ∨
        kernel.phase.endsTimeStep = true ∨ kernel.advances) := by
    rintro (at' | at') <;> simp [at', Phase.precedes, Phase.runsPostponed, Phase.endsTimeStep, advances]
  refine ⟨fun p kind => ?_, fun starts p => ?_, fun initial p known => ?_, fun initial => ?_,
    fun running once p kind => ?_, fun running once before p kind => ?_, done⟩
  · rw [(records p).1, initialization] at kind
    refine (tallied.cycle p kind).resume quiet (records p).2 ?_
    exact still.imp (fun same => same p) fun resumes => tallied.unrun (early resumes.2).1 p
  · exact (Tally.add_run quiet).trans (tallied.unrun (precedes starts) p)
  · rw [initialization] at initial
    rw [count] at known
    have same := still.resolve_right fun resumes => by simp [initial] at resumes
    simp only [Tally.add, same p]
    have before := tallied.all initial p known
    split
    · next flags => simp [flags.1] at flags
    · exact before
  · rw [initialization] at initial
    simp only [initial, if_true]
    exact tallied.started initial
  · rw [initialization] at running
    rw [(records p).1] at kind
    simp only [running, Bool.false_eq_true, if_false]
    have once := (Bool.or_eq_false_iff.mp once).1
    refine (tallied.time running once p kind).resume quiet (records p).2 ?_
    exact still.imp (fun same => same p) fun resumes =>
      tallied.waits running once (early resumes.2).2 p kind
  · rw [(records p).1] at kind
    rw [initialization] at running
    simp only [running, Bool.false_eq_true, if_false]
    obtain ⟨earlier, now⟩ := Bool.or_eq_false_iff.mp once
    exact (Tally.add_run quiet).trans (tallied.waits running earlier (waits running now before) p kind)

section

variable (tallied : kernel.Tallied history)
include tallied

/-- A step of the kernel on its own that does not resume processes. -/
theorem rest (ticks : Ticks design kernel kernel')
    (update : kernel.phase ≠ .updateSignals) (scan : kernel.phase ≠ .timeouts)
    (initialization : kernel'.initialization = kernel.initialization)
    (precedes : kernel'.phase.precedes = true → kernel.phase.precedes = true)
    (waits : kernel.initialization = false → kernel.repeats .tick kernel' = false →
      ¬(kernel'.phase.runsPostponed = true ∨ kernel'.phase.endsTimeStep = true ∨ kernel'.advances) →
      ¬(kernel.phase.runsPostponed = true ∨ kernel.phase.endsTimeStep = true ∨ kernel.advances))
    (done : kernel'.phase.endsTimeStep = true ∨ kernel'.advances ∨
      kernel'.initialization = true ∧ kernel'.phase.settles = true → kernel'.processes.postponedTable = []) :
    kernel'.Tallied (history.within kernel .tick kernel') := by
  obtain ⟨proc, count⟩ := ticks.records update scan
  refine tallied.keep (fun _ => by simp) (fun p => ?_) count initialization (.inl fun p => ?_) precedes waits done
  · rw [proc]
    exact ⟨rfl, id⟩
  · rw [proc]

/-- A cycle starts. -/
theorem starts (scheduled : kernel.Scheduled design cells)
    (clocked : kernel.Clocked) (at' : kernel.phase = .simulationCycle) {phase : Phase}
    (next : (∃ left, phase = .hook .nextTimeStep 0 left) ∨ phase = .afterDelay false ∨ phase = .updateSignals) :
    { kernel with now := kernel.nextTime, phase }.Tallied ⟨.empty,
      if kernel.nextTime = kernel.now then history.time else .empty,
      kernel.nextTime = kernel.now && history.repeats⟩ := by
  have running : kernel.initialization = false := by
    by_contra initial
    have impossible := (clocked.initial (by simpa using initial)).2
    simp [at', Phase.initial] at impossible
  have idle := @Scheduled.idle design kernel cells scheduled (by simp [at', Phase.table])
    (by simp [at', Phase.gathers])
  have phases : phase ≠ .simulationCycle ∧ phase.endsTimeStep = false := by
    rcases next with ⟨left, rfl⟩ | rfl | rfl <;> exact ⟨by simp, rfl⟩
  refine ⟨fun p kind => Tally.balances_empty (idle (.inl ?_)), fun _ _ => rfl, fun initial => ?_,
    fun initial => ?_, fun _ once p kind => ?_, fun _ once _ p kind => ?_, ?_⟩
  · exact kind.resolve_right (by simp [running])
  · exact absurd (running.symm.trans initial) Bool.false_ne_true
  · exact absurd (running.symm.trans initial) Bool.false_ne_true
  · dsimp only
    split
    · next same => exact tallied.time running (by simpa [same] using once) p kind
    · next other =>
      exact Tally.balances_empty (idle (.inr (tallied.done (.inr (.inl ⟨at', other⟩)))))
  · dsimp only
    split
    · next same =>
      refine tallied.waits running (by simpa [same] using once) ?_ p kind
      simp [at', Phase.runsPostponed, Phase.endsTimeStep, advances, same]
    · rfl
  · rintro (ends | ⟨starts, -⟩ | ⟨initial, -⟩)
    · exact absurd (phases.2.symm.trans ends) Bool.false_ne_true
    · exact absurd starts phases.1
    · exact absurd (running.symm.trans initial) Bool.false_ne_true

/-- The time of the next cycle is known, and no postponed process has been run in this one. -/
theorem ends (scheduled : kernel.Scheduled design cells)
    (clocked : kernel.Clocked) (at' : kernel.phase.settles = true) {start middle : Kernel} {tn : Int}
    (same : start = kernel ∨ start = kernel.flushActiveChain design)
    (computed : start.computeNextTime design = .ok (middle, tn)) (finish : Ends design middle tn kernel')
    (ticks : Ticks design kernel kernel') : kernel'.Tallied (history.within kernel .tick kernel') := by
  have phases : kernel.phase ≠ .updateSignals ∧ kernel.phase ≠ .timeouts ∧
      kernel.phase ≠ .simulationCycle ∧
      kernel.phase.runsPostponed = false ∧ kernel.phase.endsTimeStep = false ∧
      kernel.phase ≠ .runProcesses true [] ∧ ∀ kept, kernel.phase ≠ .hook .endOfTimeStep kept 0 := by
    unfold Phase.settles at at'
    split at at'
    · next same => simp [same, Phase.runsPostponed, Phase.endsTimeStep]
    · next same => simp [same, Phase.runsPostponed, Phase.endsTimeStep]
    · simp at at'
  obtain ⟨update, scan, cycle, runs, ends, notRun, notEnd⟩ := phases
  obtain ⟨table, gathers⟩ := Phase.rests_of_settles at'
  have still : ¬(kernel.phase.runsPostponed = true ∨ kernel.phase.endsTimeStep = true ∨
      kernel.advances) := by
    simp [runs, ends, advances, cycle]
  have shape : middle = { kernel with signals := middle.signals } := by
    obtain ⟨frame, -⟩ := computeNextTime_frame computed
    rcases same with rfl | rfl <;> exact frame
  rw [shape] at finish
  cases finish with
  | lastKnownDelta phase =>
    refine tallied.rest ticks update scan rfl (fun before => by simp [callCallbacks, Phase.precedes] at before)
      (fun _ _ _ => still) ?_
    rintro (ending | ⟨starts, -⟩ | ⟨initial, -⟩)
    · simp [callCallbacks, Phase.endsTimeStep] at ending
    · simp [callCallbacks] at starts
    · exact tallied.done (.inr (.inr ⟨initial, at'⟩))
  | initialization initial =>
    have initial : kernel.initialization = true := initial
    have none := tallied.done (.inr (.inr ⟨initial, at'⟩))
    have idle := @Scheduled.idle design kernel cells scheduled table gathers
    refine ⟨fun p kind => ?_, fun before => by simp [endInitialization, Phase.precedes] at before,
      fun again => by simp [endInitialization] at again,
      fun again => by simp [endInitialization] at again, fun _ _ p kind => ?_, fun _ _ _ p kind => ?_,
      fun _ => none⟩
    · exact (tallied.cycle p (.inr initial)).resume (fun _ => by simp) id (.inl rfl)
    · simp only [initial, if_true, tallied.started initial]
      exact Tally.balances_empty (idle (.inr none))
    · simp only [initial, if_true, tallied.started initial]
      rfl
  | delta running now =>
    have current := clocked.current cycle
    unfold endDelta at ticks ⊢
    split at ticks
    · next past =>
      rw [if_pos past]
      refine tallied.rest ticks update scan rfl (fun before => by simp [Phase.precedes] at before)
        (fun _ _ _ => still) ?_
      simp [Phase.endsTimeStep, Phase.settles, advances]
    · next more =>
      rw [if_neg more]
      refine tallied.rest ticks update scan rfl (fun before => by simp [Phase.precedes] at before)
        (fun _ _ _ => still) ?_
      simp [Phase.endsTimeStep, Phase.settles, advances, current]
  | postponed running later =>
    refine tallied.rest ticks update scan rfl
      (fun before => by simp [runPostponed, Phase.precedes] at before) (fun _ _ _ => still) fun _ => rfl
  | endOfTimeStep running later done =>
    have none : kernel.processes.postponedTable = [] := done.resolve_right notRun
    exact tallied.rest ticks update scan rfl
      (fun before => by simp [callCallbacks, Phase.precedes] at before) (fun _ _ _ => still) fun _ => none
  | timeStep done =>
    have none : kernel.processes.postponedTable = [] := by
      rcases done with ⟨-, none | ran⟩ | ⟨kept, ending⟩
      · exact none
      · exact absurd ran notRun
      · exact absurd ending (notEnd kept)
    exact tallied.rest ticks update scan rfl
      (fun before => by simp [endTimeStep, Phase.precedes] at before) (fun _ _ _ => still) fun _ => none

/-- The end of a time step, after the postponed processes or the callbacks. -/
theorem advance (running : kernel.initialization = false)
    (ticks : Ticks design kernel kernel')
    (phase : kernel.phase = .runProcesses true [] ∨ ∃ kept, kernel.phase = .hook .endOfTimeStep kept 0)
    (none : kernel'.processes.postponedTable = []) (same : kernel'.initialization = false)
    (starts : kernel'.phase.precedes = false) (ends : kernel.repeats .tick kernel' = false →
      kernel'.phase.endsTimeStep = true ∨ kernel'.advances) : kernel'.Tallied (history.within kernel .tick kernel') := by
  have phases : kernel.phase ≠ .updateSignals ∧ kernel.phase ≠ .timeouts := by
    rcases phase with phase | ⟨kept, phase⟩ <;> simp [phase]
  exact tallied.rest ticks phases.1 phases.2 (same.trans running.symm)
    (fun before => absurd (starts.symm.trans before) Bool.false_ne_true)
    (fun _ once still => absurd (.inr (ends once)) still) fun _ => none

section

variable (scheduled : kernel.Scheduled design cells)
include scheduled

theorem goesOn
    (clocked : kernel.Clocked) (at' : kernel.phase ≠ .simulationCycle) (enabled : kernel.enabled design .tick = true)
    (result : kernel.tick design = .ok kernel') : kernel'.Tallied (history.within kernel .tick kernel') := by
  have ticks := tick_cases enabled result
  by_cases ran : kernel.phase = .runProcesses true []
  · have none := scheduled.postponed (by simp [ran, Phase.runsPostponed])
    unfold Kernel.tick at result
    simp only [ran, if_true] at result
    split at result
    · next initial =>
      rw [← Except.ok.inj result] at ticks ⊢
      refine tallied.rest ticks (by simp [ran]) (by simp [ran]) rfl
        (fun before => by simp [Phase.precedes] at before)
        (fun running => absurd (running.symm.trans initial) Bool.false_ne_true) fun _ => none
    · next running =>
      have running : kernel.initialization = false := by simpa using running
      obtain ⟨⟨middle, tn⟩, computed, result⟩ := bind_ok.mp result
      obtain ⟨-, initialization, processes, now⟩ := computeNextTime_fields computed
      dsimp only at result
      split at result
      · simp at result
      · next later =>
        rw [← Except.ok.inj result] at ticks ⊢
        have ended : (middle.endOfTimeStep tn).processes = middle.processes ∧
            (middle.endOfTimeStep tn).initialization = middle.initialization ∧
            (middle.endOfTimeStep tn).phase.precedes = false ∧ ((middle.endOfTimeStep tn).phase.endsTimeStep = true ∨
              (middle.endOfTimeStep tn).advances) := by
          unfold endOfTimeStep
          split
          · exact ⟨rfl, rfl, rfl, .inl rfl⟩
          · exact ⟨rfl, rfl, rfl, .inr ⟨rfl, later⟩⟩
        obtain ⟨processes', initialization', starts, ends⟩ := ended
        refine tallied.advance running ticks (.inl ran) ?_ ?_ starts fun _ => ends
        · rw [processes', processes]
          exact none
        · rw [initialization', initialization]
          exact running
  by_cases last : ∃ kept, kernel.phase = .hook .endOfTimeStep kept 0
  · have ended := last
    obtain ⟨kept, last⟩ := last
    have none := tallied.done (.inl (by simp [last, Phase.endsTimeStep]))
    have running : kernel.initialization = false := by
      by_contra initial
      have impossible := (clocked.initial (by simpa using initial)).2
      simp [last, Phase.initial] at impossible
    unfold Kernel.tick at result
    simp only [last] at result
    obtain ⟨⟨middle, tn⟩, computed, result⟩ := bind_ok.mp result
    obtain ⟨-, initialization, processes, now⟩ := computeNextTime_fields computed
    rw [← Except.ok.inj result] at ticks ⊢
    refine tallied.advance running ticks (.inr ended) ?_ (initialization.trans running) rfl fun once => .inr ⟨rfl, ?_⟩
    · exact (congrArg Processes.postponedTable processes).trans none
    · show tn ≠ middle.now
      rw [now]
      exact fun same => by simp [repeats, last, endTimeStep, same] at once
  have early : kernel.phase = .updateSignals ∨ kernel.phase = .timeouts →
      kernel.initialization = false := by
    intro phase
    by_contra initial
    have impossible := (clocked.initial (by simpa using initial)).2
    rcases phase with phase | phase <;> simp [phase, Phase.initial] at impossible
  by_cases resumes : kernel.phase = .updateSignals ∨ kernel.phase = .timeouts
  · obtain ⟨records, count, initialization, left, phase⟩ := ticks.resumes scheduled resumes
    have running := early resumes
    refine tallied.keep (fun _ => by simp) records count initialization (.inr ⟨running, resumes⟩)
      (fun _ => ?_) (fun _ _ _ => ?_) ?_
    · rcases resumes with phase | phase <;> rw [phase] <;> rfl
    · rcases resumes with phase | phase <;> simp [phase, Phase.runsPostponed, Phase.endsTimeStep, advances]
    · rw [initialization, running]
      rcases phase with phase | phase <;> simp [phase, Phase.endsTimeStep, advances]
  obtain ⟨update, scan⟩ := not_or.mp resumes
  cases ticks with
  | cycle other => exact absurd other at'
  | callback hook kept left phase =>
    obtain ⟨callbacks, kept', same⟩ := returnCallback_eq kernel hook kept left
    have classes : (Phase.hook hook kept' left).precedes = kernel.phase.precedes ∧
        (Phase.hook hook kept' left).endsTimeStep = kernel.phase.endsTimeStep ∧
        (Phase.hook hook kept' left).settles = kernel.phase.settles ∧
        kernel.phase.runsPostponed = false := by
      rw [phase]
      cases hook <;> exact ⟨rfl, rfl, rfl, rfl⟩
    have proceeds := tick_cases enabled result
    rw [same] at proceeds ⊢
    refine tallied.rest proceeds update scan rfl (fun before => classes.1 ▸ before) (fun _ _ still => ?_) ?_
    · rintro (runs | ends | ⟨starts, -⟩)
      · exact Bool.false_ne_true (classes.2.2.2.symm.trans runs)
      · exact still (.inr (.inl (classes.2.1.trans ends)))
      · exact at' starts
    · rintro (ends | ⟨starts, -⟩ | ⟨initial, settles⟩)
      · exact tallied.done (.inl (classes.2.1 ▸ ends))
      · simp at starts
      · exact tallied.done (.inr (.inr ⟨initial, classes.2.2.1 ▸ settles⟩))
  | ends start middle phase tn computed _ finish =>
    have settles : kernel.phase.settles = true := by
      rcases phase with ⟨-, phase | phase | phase⟩ | ⟨-, kept, phase⟩
      · rw [phase]
        rfl
      · exact absurd phase ran
      · exact absurd phase last
      · rw [phase]
        rfl
    exact tallied.ends scheduled clocked settles (phase.imp And.left And.left) computed finish
      (tick_cases enabled result)
  | update phase => exact absurd phase update
  | awake phase => exact absurd phase scan
  | nextTimeStep kept phase next goesOn =>
    refine tallied.rest (tick_cases enabled result) update scan rfl (fun _ => ?_) (fun _ _ _ => ?_) ?_
    · rw [phase]
      rfl
    · simp [phase, Phase.runsPostponed, Phase.endsTimeStep, advances]
    · rcases goesOn with rfl | rfl <;> simp [Phase.endsTimeStep, Phase.settles, advances]
  | timeCallback phase =>
    obtain ⟨callbacks, _, same, phase'⟩ := callTimeCallback_eq kernel
    have proceeds := tick_cases enabled result
    rw [same] at proceeds ⊢
    refine tallied.rest proceeds update scan rfl (fun _ => ?_) (fun _ _ _ => ?_) ?_
    · rw [phase]
      rfl
    · simp [phase, Phase.runsPostponed, Phase.endsTimeStep, advances]
    · rcases phase' with phase' | ⟨called, phase'⟩ <;> simp [phase', Phase.endsTimeStep, Phase.settles, advances]
  | timeReturn phase | signalsUpdated kept phase =>
    refine tallied.rest (tick_cases enabled result) update scan rfl (fun _ => ?_) (fun _ _ _ => ?_) ?_
    · rw [phase]
      rfl
    · simp [phase, Phase.runsPostponed, Phase.endsTimeStep, advances]
    · simp [Phase.endsTimeStep, Phase.settles, advances]
  | startOfProcesses kept phase ranProcesses =>
    refine tallied.rest (tick_cases enabled result) update scan rfl
      (fun before => by simp [Phase.precedes] at before) (fun _ _ _ => ?_) ?_
    · simp [phase, Phase.runsPostponed, Phase.endsTimeStep, advances]
    · simp [Phase.endsTimeStep, Phase.settles, advances]
  | firstPostponed phase initial ranProcesses =>
    exact tallied.rest (tick_cases enabled result) update scan rfl
      (fun before => by simp [Phase.precedes] at before)
      (fun running => absurd (running.symm.trans initial) Bool.false_ne_true) fun _ => rfl
  | ran postponed phase initial =>
    cases postponed with
    | true => exact absurd phase ran
    | false =>
      refine tallied.rest (tick_cases enabled result) update scan rfl
        (fun before => by simp [Phase.precedes] at before) (fun _ _ _ => ?_) ?_
      · simp [phase, Phase.runsPostponed, Phase.endsTimeStep, advances]
      · simp [initial, Phase.endsTimeStep, advances]

/-- The next process is run. -/
theorem run
    (listed : kernel.Listed) {again postponed : Bool} {p : ProcId} {table : List ProcId}
    (at' : kernel.phase = .runProcesses postponed (p :: table)) (resumed : (kernel.processes.proc p).resumed = true)
    (runs : RunsProcess kernel postponed p table kernel') :
    kernel'.Tallied (history.within kernel (.run again) kernel') := by
  obtain ⟨cells', state, sensitivity, scheduled', ran, -⟩ := scheduled.runs at' resumed runs
  have kind : (kernel.processes.proc p).postponed = postponed := by
    unfold Listed at listed
    rw [at'] at listed
    exact listed.kind p List.mem_cons_self
  have flags : ∀ q, (kernel'.processes.proc q).postponed = (kernel.processes.proc q).postponed := by
    intro q
    by_cases same : q = p
    · rw [same]
      exact ran.postponed
    · exact (ran.others q same).postponed
  have others : ∀ q, q ≠ p → (kernel'.processes.proc q).resumed = (kernel.processes.proc q).resumed :=
    fun q different => (ran.others q different).resumed
  have phase : kernel'.initialization = kernel.initialization ∧
      kernel'.phase.precedes = false ∧ kernel'.phase.settles = false ∧
      kernel'.phase.endsTimeStep = false ∧ kernel'.phase ≠ .simulationCycle ∧
      kernel'.phase.runsPostponed = postponed := by
    cases runs <;> exact ⟨rfl, rfl, rfl, rfl, by simp, rfl⟩
  obtain ⟨initialization, precedes, settles, ends, starts, runsPostponed⟩ := phase
  refine ⟨fun q kind => ?_, fun before => ?_, fun initial q known => ?_, fun initial => ?_,
    fun running once q kind => ?_, fun running once before q postpones => ?_, ?_⟩
  · rw [flags, initialization] at kind
    exact (tallied.cycle q kind).run at' resumed ran.idle (others q)
  · exact absurd (precedes.symm.trans before) Bool.false_ne_true
  · rw [initialization] at initial
    rw [ran.count] at known
    have before := tallied.all initial q known
    simp only [Tally.add]
    by_cases same : q = p
    · simpa [same, resumed] using same ▸ before
    · simpa [others q same] using before
  · rw [initialization] at initial
    simp only [initial, if_true]
    exact tallied.started initial
  · rw [flags] at kind
    rw [initialization] at running
    have once := (Bool.or_eq_false_iff.mp once).1
    simp only [running, Bool.false_eq_true, if_false]
    exact (tallied.time running once q kind).run at' resumed ran.idle (others q)
  · rw [flags] at postpones
    rw [initialization] at running
    have once := (Bool.or_eq_false_iff.mp once).1
    have nonpostponed : postponed = false := by
      rw [runsPostponed] at before
      simpa using fun same => before (.inl same)
    have different : p ≠ q := by
      rintro rfl
      exact absurd ((kind.trans nonpostponed).symm.trans postpones) Bool.false_ne_true
    have unrun := tallied.waits running once
      (by simp [at', Phase.runsPostponed, nonpostponed, Phase.endsTimeStep, advances]) q postpones
    simp [running, Tally.add, Kernel.runsNext, at', different, unrun]
  · rw [settles, ends]
    simp [advances, starts]

/-- The running process suspends. -/
theorem suspend
    (listed : kernel.Listed) {postponed : Bool} {p : ProcId} {table : List ProcId}
    (at' : kernel.phase = .process p postponed table) {suspension : Suspension}
    (may : kernel.maySuspend design p suspension = true) (result : kernel.suspend p suspension = .ok kernel') :
    { kernel' with phase := .runProcesses postponed table }.Tallied
      (history.within kernel (.suspend suspension) { kernel' with phase := .runProcesses postponed table }) := by
  obtain ⟨cells', state, sensitivity, scheduled', suspends, -⟩ := scheduled.suspends at' may result
  have idle := (scheduled.running p postponed table at').1.idle
  have initialization : kernel'.initialization = kernel.initialization := by
    rw [suspend_frame result]
  have same : ∀ q, (kernel'.processes.proc q).postponed = (kernel.processes.proc q).postponed ∧
      (kernel'.processes.proc q).resumed = (kernel.processes.proc q).resumed := by
    intro q
    by_cases here : q = p
    · subst here
      refine ⟨suspends.postponed, ?_⟩
      rw [idle]
      by_contra resumed
      -- The process that suspends has not been resumed meanwhile.
      have tabled : q ∈ table ∨ q ∈ if (kernel'.processes.proc q).postponed then
          kernel'.processes.postponedTable else kernel'.processes.resumeTable :=
        scheduled'.sound.tabled.resumed q (by simpa using resumed)
      unfold Listed at listed
      rw [at'] at listed
      refine listed.not_mem idle ?_
      rw [suspends.resumeTable, suspends.postponedTable] at tabled
      rcases tabled with inside | inside
      · simp [Processes.toRun, Phase.table, inside]
      · split at inside <;> simp [Processes.toRun, inside]
    · exact ⟨(suspends.others q here).postponed, (suspends.others q here).resumed⟩
  refine tallied.keep (fun _ => by simp) (fun q => ⟨(same q).1, fun before => ?_⟩) suspends.count
    initialization (.inl fun q => (same q).2) (fun before => by simp [Phase.precedes] at before)
    (fun _ _ before => ?_) ?_
  · exact (same q).2.trans before
  · simp only [at', Phase.runsPostponed, Phase.endsTimeStep, advances] at before ⊢
    simpa using before
  · simp [Phase.endsTimeStep, Phase.settles, advances]

end

end

/-- A step that leaves the processes and the phase. -/
theorem stay {label : Label} (tallied : kernel.Tallied history) (quiet : ∀ again, label ≠ .run again)
    (processes : kernel'.processes = kernel.processes) (phase : kernel'.phase = kernel.phase)
    (initialization : kernel'.initialization = kernel.initialization) (now : kernel'.now = kernel.now)
    (next : kernel'.nextTime = kernel.nextTime) : kernel'.Tallied (history.within kernel label kernel') := by
  have advances : kernel'.advances ↔ kernel.advances := by
    unfold Kernel.advances
    rw [phase, now, next]
  refine tallied.keep quiet (fun q => ?_) (by rw [processes]) initialization (.inl fun q => ?_) ?_
    (fun _ _ before => ?_) ?_
  · rw [processes]
    exact ⟨rfl, id⟩
  · rw [processes]
  · rw [phase]
    exact id
  · rwa [phase, advances] at before
  · rw [phase, advances, initialization, processes]
    exact tallied.done

/-- Every step that does not fail keeps the tallies. -/
theorem step {label : Label} (tallied : kernel.Tallied history)
    (scheduled : kernel.Scheduled design cells) (listed : kernel.Listed) (clocked : kernel.Clocked)
    (enabled : kernel.enabled design label = true) (result : kernel.step design label = .ok kernel') :
    kernel'.Tallied (history.record kernel label kernel') := by
  cases label with
  | tick =>
    by_cases starts : kernel.phase = .simulationCycle
    · cases tick_cases enabled result with
      | cycle at' phase next =>
        simp only [History.record, starts]
        exact tallied.starts scheduled clocked starts next
      | ends start middle at' =>
        rcases at' with ⟨-, at' | at' | ⟨kept, at'⟩⟩ | ⟨-, kept, at'⟩ <;>
          exact absurd (at'.symm.trans starts) (by simp)
      | _ => simp_all
    have same : history.record kernel .tick kernel' = (history.within kernel .tick kernel') := by
      unfold History.record
      split
      · contradiction
      · rfl
    rw [same]
    exact tallied.goesOn scheduled clocked starts enabled result
  | run again =>
    obtain ⟨postponed, p, table, at', resumed, runs⟩ := runProcess_cases enabled result
    exact tallied.run scheduled listed at' resumed runs
  | call call =>
    simp only [Kernel.step] at result
    split at result
    · obtain ⟨signals, -, result⟩ := bind_ok.mp result
      rw [← Except.ok.inj result]
      exact tallied.stay (fun _ => by simp) rfl rfl rfl rfl rfl
    · rw [← Except.ok.inj result]
      exact tallied.stay (fun _ => by simp) rfl rfl rfl rfl rfl
  | suspend suspension =>
    simp only [Kernel.step] at result
    split at result
    · next p postponed table at' =>
      obtain ⟨middle, suspended, result⟩ := bind_ok.mp result
      have may : kernel.maySuspend design p suspension = true := by
        simpa [Kernel.enabled, at'] using enabled
      rw [← Except.ok.inj result]
      exact tallied.suspend scheduled listed at' may suspended
    · rw [← Except.ok.inj result]
      exact tallied.stay (fun _ => by simp) rfl rfl rfl rfl rfl
  | callback call =>
    rw [← Except.ok.inj result, callbackCall_frame]
    exact tallied.stay (fun _ => by simp) rfl rfl rfl rfl rfl

end Tallied

end Kernel

namespace Processes

/-- Which processes are postponed. -/
def kinds (procs : Processes) : List Bool :=
  (List.range procs.count).map fun p => (procs.proc p).postponed

variable {procs procs' : Processes}

/-- The kinds depend on the flags only. -/
theorem kinds_congr (count : procs'.count = procs.count)
    (flags : ∀ p, (procs'.proc p).postponed = (procs.proc p).postponed) : procs'.kinds = procs.kinds := by
  simp [kinds, count, flags]

theorem length_le_kinds {table : List ProcId} {postponed : Bool} (nodup : table.Nodup)
    (known : ∀ p ∈ table, p < procs.count) (kind : ∀ p ∈ table, (procs.proc p).postponed = postponed) :
    table.length ≤ procs.kinds.count postponed := by
  have inside : table ⊆ (List.range procs.count).filter fun p =>
      (procs.proc p).postponed == postponed := by
    intro p member
    exact List.mem_filter.mpr ⟨List.mem_range.mpr (known p member), by simpa using kind p member⟩
  have fits := (nodup.subperm inside).length_le
  rwa [← List.countP_eq_length_filter, ← Function.comp_def (· == postponed), ← List.countP_map] at fits

end Processes

namespace Kernel

variable {design : Design} {kernel kernel' : Kernel} {cells : List ProcId}

theorem step_kinds {label : Label} (scheduled : kernel.Scheduled design cells)
    (enabled : kernel.enabled design label = true) (result : kernel.step design label = .ok kernel') :
    kernel'.processes.kinds = kernel.processes.kinds := by
  cases label with
  | tick =>
    have ticks := tick_cases enabled result
    by_cases resumes : kernel.phase = .updateSignals ∨ kernel.phase = .timeouts
    · obtain ⟨records, count, -⟩ := ticks.resumes scheduled resumes
      exact Processes.kinds_congr count fun p => (records p).1
    · obtain ⟨proc, count⟩ := ticks.records (not_or.mp resumes).1 (not_or.mp resumes).2
      exact Processes.kinds_congr count fun p => by rw [proc]
  | run again =>
    obtain ⟨postponed, p, table, at', resumed, runs⟩ := runProcess_cases enabled result
    obtain ⟨cells', state, sensitivity, -, ran, -⟩ := scheduled.runs at' resumed runs
    refine Processes.kinds_congr ran.count fun q => ?_
    by_cases same : q = p
    · exact same ▸ ran.postponed
    · exact (ran.others q same).postponed
  | call call =>
    simp only [Kernel.step] at result
    split at result
    · obtain ⟨signals, -, result⟩ := bind_ok.mp result
      rw [← Except.ok.inj result]
    · rw [← Except.ok.inj result]
  | suspend suspension =>
    simp only [Kernel.step] at result
    split at result
    · next p postponed table at' =>
      obtain ⟨middle, suspended, result⟩ := bind_ok.mp result
      have may : kernel.maySuspend design p suspension = true := by
        simpa [Kernel.enabled, at'] using enabled
      obtain ⟨cells', state, sensitivity, -, suspends, -⟩ := scheduled.suspends at' may suspended
      rw [← Except.ok.inj result]
      refine Processes.kinds_congr suspends.count fun q => ?_
      by_cases same : q = p
      · exact same ▸ suspends.postponed
      · exact (suspends.others q same).postponed
    · rw [← Except.ok.inj result]
  | callback call =>
    rw [← Except.ok.inj result, callbackCall_frame]

end Kernel

/-- The timeout chain, the tables and the flags of the processes agree, the event lists name each process as often as
its wait statement names the signal, and `Run_Processes` runs the next process without an error. -/
structure Kernel.Consistent (design : Design) (kernel : Kernel) : Prop where
  sound : ∃ cells, kernel.processes.Sound cells kernel.phase.table
  sensitive : Sensitive design kernel.processes kernel.signals.eventList
  runs again : kernel.enabled design (.run again) = true → ∃ kernel', kernel.step design (.run again) = .ok kernel'

namespace Setup

variable {design : Design} {setup : Setup}

/-- `Nbr_Non_Postponed_Processes`. -/
def nbrNonPostponedProcesses (setup : Setup) : Nat :=
  (setup.processes.filter fun decl => !decl.postponed).length

/-- `Nbr_Postponed_Processes`. -/
def nbrPostponedProcesses (setup : Setup) : Nat :=
  (setup.processes.filter fun decl => decl.postponed).length

/-- What has happened when the simulation starts: every process has been resumed. -/
def history (setup : Setup) : History where
  cycle := ⟨fun p => if p < setup.processes.length then 1 else 0, fun _ => 0⟩
  time := .empty
  repeats := false

/-- A run of the simulation reaches the kernel, and this is what has happened in it. -/
def Records (design : Design) (setup : Setup) (kernel : Kernel) (history : History) : Prop :=
  ((Kernel.system design).recording History.record).Run (fun _ _ => True)
    (setup.kernel design, setup.history) (kernel, history)

theorem register_kinds (design : Design) (setup : Setup) :
    (setup.register design).1.kinds = setup.processes.map ProcessDecl.postponed := by
  have added : ∀ (decls : List ProcessDecl) (procs : Processes) (signals : SignalState),
      (decls.foldl (fun state decl => (decl.register state.1, decl.connect state.1.count state.2))
        (procs, signals)).1.kinds = procs.kinds ++ decls.map ProcessDecl.postponed := by
    intro decls
    induction decls with
    | nil => simp
    | cons decl decls ih =>
      intro procs signals
      have one : (decl.register procs).kinds = procs.kinds ++ [decl.postponed] := by
        have old : ∀ p ∈ List.range procs.count, ((decl.register procs).proc p).postponed =
            (procs.proc p).postponed := by
          intro p known
          have other : p ≠ procs.count := (List.mem_range.mp known).ne
          simp [ProcessDecl.register, Function.update_of_ne other]
        have new : ((decl.register procs).proc procs.count).postponed = decl.postponed := by
          simp [ProcessDecl.register]
        show (List.range (procs.count + 1)).map _ = _
        rw [List.range_succ, List.map_append, List.map_congr_left old, List.map_singleton, new]
        rfl
      rw [List.foldl_cons, ih, one]
      simp
  exact added setup.processes noProcesses _

theorem kernel_kinds (design : Design) (setup : Setup) :
    (setup.kernel design).processes.kinds = setup.processes.map ProcessDecl.postponed := by
  obtain ⟨count, -, same⟩ := Processes.resumeProcesses_fields (setup.register design).1
    (List.range (setup.register design).1.count)
  refine (Processes.kinds_congr count fun p => ?_).trans (register_kinds design setup)
  rw [same]

theorem kernel_tallied (wellFormed : setup.WellFormed design) : (setup.kernel design).Tallied setup.history := by
  have registered := register_registered wellFormed
  obtain ⟨count, -, same⟩ := Processes.resumeProcesses_fields (setup.register design).1
    (List.range (setup.register design).1.count)
  have length : (setup.register design).1.count = setup.processes.length := by
    have kinds := congrArg List.length (register_kinds design setup)
    simpa [Processes.kinds] using kinds
  have resumed : ∀ p, ((setup.kernel design).processes.proc p).resumed =
      decide (p < setup.processes.length) := by
    intro p
    show (((List.range _).foldl Processes.resumeProcess _).proc p).resumed = _
    rw [same, (registered.records p).2.2.1, length]
    simp
  refine ⟨fun p _ => ?_, fun _ _ => rfl, fun _ p known => ?_, fun _ => rfl, by simp [Setup.kernel],
    by simp [Setup.kernel], ?_⟩
  · unfold Tally.Balances
    rw [resumed]
    by_cases known : p < setup.processes.length <;> simp [history, known]
  · have known : p < setup.processes.length := by
      rw [← length, ← count]
      exact known
    simp [history, known]
  · simp [Setup.kernel, Phase.endsTimeStep, Phase.settles, Kernel.advances]

theorem Records.tallied (wellFormed : setup.WellFormed design) {kernel : Kernel} {history : History}
    (records : setup.Records design kernel history) :
    kernel.Tallied history ∧ (∃ cells, kernel.Scheduled design cells) ∧ kernel.Listed ∧
      kernel.processes.kinds = setup.processes.map ProcessDecl.postponed := by
  have reached := @System.Run.recording_invariant _ _ _ _ (Kernel.system design) History.record
    (fun _ _ => True) (setup.kernel design, setup.history) (kernel, history)
    (fun kernel history => kernel.Tallied history ∧ (∃ cells, kernel.Scheduled design cells) ∧
      kernel.Listed ∧ kernel.Clocked ∧
      kernel.processes.kinds = setup.processes.map ProcessDecl.postponed) records
    ⟨kernel_tallied wellFormed, ⟨[], kernel_scheduled wellFormed⟩, kernel_listed wellFormed,
      ⟨fun _ => rfl, fun _ => ⟨rfl, rfl⟩⟩, kernel_kinds design setup⟩ ?_
  · exact ⟨reached.1, reached.2.1, reached.2.2.1, reached.2.2.2.2⟩
  · rintro kernel history label kernel' ⟨tallied, ⟨cells, scheduled⟩, listed, clocked, kinds⟩ enabled - result
    exact ⟨tallied.step scheduled listed clocked enabled result, scheduled.step enabled result,
      listed.step scheduled enabled result, clocked.step enabled result,
      (Kernel.step_kinds scheduled enabled result).trans kinds⟩

/-- In every state of a run: the table that is being run and the two tables hold no process twice, all
their processes are resumed, neither table holds more processes than there are of its kind, and none is added
to a table while its processes are run. In each cycle a nonpostponed process is resumed once at most, and it is
run once if it is, and not otherwise. The initialization runs every process once. After it, at each time a
postponed process is resumed once at most, it is not run before the last cycle of the time, and it is run once
in that cycle if it is resumed at the time, and not otherwise, unless a cycle at the same time follows the
callbacks at the end of the time step. -/
theorem resumptions_run (wellFormed : setup.WellFormed design) {kernel : Kernel} {history : History}
    (records : setup.Records design kernel history) : ((kernel.processes.toRun kernel.phase.table).Nodup ∧
      ∀ p ∈ kernel.processes.toRun kernel.phase.table, (kernel.processes.proc p).resumed = true) ∧
    (kernel.processes.resumeTable.length ≤ setup.nbrNonPostponedProcesses ∧
      kernel.processes.postponedTable.length ≤ setup.nbrPostponedProcesses ∧
      (kernel.phase.runs = true → if kernel.phase.runsPostponed then
        kernel.processes.postponedTable = [] else kernel.processes.resumeTable = [])) ∧
    (∀ p, (kernel.processes.proc p).postponed = false →
      history.cycle.run p ≤ history.cycle.resumed p ∧ history.cycle.resumed p ≤ 1 ∧
        (kernel.phase.table = [] → kernel.phase.gathers = false → history.cycle.run p = history.cycle.resumed p)) ∧
    (kernel.initialization = true → kernel.phase.settles = true →
      ∀ p < setup.processes.length, history.cycle.run p = 1) ∧
    (kernel.initialization = false → history.repeats = false → ∀ p, (kernel.processes.proc p).postponed = true →
        history.time.run p ≤ history.time.resumed p ∧ history.time.resumed p ≤ 1 ∧
          (kernel.phase = .simulationCycle → history.time.run p =
            if kernel.nextTime = kernel.now then 0 else history.time.resumed p)) := by
  obtain ⟨tallied, ⟨cells, scheduled⟩, listed, kinds⟩ := records.tallied wellFormed
  have nodup := listed.nodup
  simp only [Processes.toRun, List.nodup_append] at nodup
  have sizes : ∀ postponed, kernel.processes.kinds.count postponed =
      (setup.processes.filter fun decl => decl.postponed == postponed).length := by
    intro postponed
    rw [kinds, List.count, List.countP_map, ← List.countP_eq_length_filter]
    rfl
  have known := scheduled.sound.tabled.bounded
  have count : kernel.processes.count = setup.processes.length := by
    have length := congrArg List.length kinds
    simpa [Processes.kinds] using length
  refine ⟨⟨listed.nodup, listed.resumed⟩, ⟨?_, ?_, fun runs => ?_⟩, fun p kind => ?_,
    fun initial settles p member => ?_, fun running once p kind => ?_⟩
  · have fits := Processes.length_le_kinds nodup.1.2.1 (fun p member => known p (by simp [member])) listed.resume
    rw [sizes] at fits
    simpa [nbrNonPostponedProcesses] using fits
  · have fits := Processes.length_le_kinds nodup.2.1 (fun p member => known p (by simp [member])) listed.postpone
    rw [sizes] at fits
    simpa [nbrPostponedProcesses] using fits
  · split
    · next postponed => exact scheduled.postponed postponed
    · refine scheduled.gathered ?_
      cases at' : kernel.phase <;> simp_all [Phase.runs, Phase.gathers]
  · obtain ⟨owed, once⟩ := tallied.cycle p (.inl kind)
    refine ⟨by omega, once, fun rests quiet => ?_⟩
    have idle := scheduled.idle rests quiet (.inl kind)
    simp [owed, idle]
  · obtain ⟨owed, -⟩ := tallied.cycle p (.inr initial)
    have resumed := tallied.all initial p (count ▸ member)
    have rests := Phase.rests_of_settles settles
    have idle : (kernel.processes.proc p).resumed = false := scheduled.idle rests.1 rests.2
      (.inr (tallied.done (.inr (.inr ⟨initial, settles⟩))))
    simp [idle] at owed
    omega
  · obtain ⟨owed, single⟩ := tallied.time running once p kind
    refine ⟨by omega, single, fun at' => ?_⟩
    split
    · next same =>
      refine tallied.waits running once ?_ p kind
      simp [at', Phase.runsPostponed, Phase.endsTimeStep, Kernel.advances, same]
    · next other =>
      have idle : (kernel.processes.proc p).resumed = false :=
        scheduled.idle (by simp [at', Phase.table]) (by simp [at', Phase.gathers])
          (.inr (tallied.done (.inr (.inl ⟨at', other⟩))))
      simp [owed, idle]

theorem exists_records {labels : List Label} {γ : Type*} {view : Kernel → History → γ} {c : γ}
    (executed : (((Kernel.system design).recording History.record).execute (fun _ _ => True)
      (setup.kernel design, setup.history) labels).map (fun state => view state.1 state.2) = some c) :
    ∃ kernel history, setup.Records design kernel history ∧ view kernel history = c := by
  obtain ⟨⟨kernel, history⟩, run, seen⟩ := System.exists_run executed
  exact ⟨kernel, history, run, seen⟩

/-- Both processes wait until the time 1, where they are run again and wait until the time 2. -/
def waitsUntilTwo : List Label :=
  [.tick, .run false, .suspend (.waitFor 1), .tick, .run false, .suspend (.waitFor 1), .tick, .tick,
    .tick, .tick, .tick, .tick, .tick, .tick, .run false, .suspend (.waitFor 1), .tick, .tick,
    .run false, .suspend (.waitFor 1), .tick]

/-- The postponed process has been run once at the time 1, and time goes on. -/
theorem resumptions_run_until_two : ∃ (kernel : Kernel) (history : History),
    (kernel.processes.proc 0).postponed = true ∧ history.time.run 0 = 1 ∧
    (kernel.processes.proc 1).postponed = false ∧ history.time.run 1 = 1 ∧
    kernel.phase = .simulationCycle ∧ kernel.now = 1 ∧ kernel.nextTime = 2 ∧
    ((kernel.processes.toRun kernel.phase.table).Nodup ∧
      ∀ p ∈ kernel.processes.toRun kernel.phase.table, (kernel.processes.proc p).resumed = true) ∧
    (kernel.processes.resumeTable.length ≤ postponedSetup.nbrNonPostponedProcesses ∧
      kernel.processes.postponedTable.length ≤ postponedSetup.nbrPostponedProcesses ∧
      (kernel.phase.runs = true → if kernel.phase.runsPostponed then
        kernel.processes.postponedTable = [] else kernel.processes.resumeTable = [])) ∧
    (∀ p, (kernel.processes.proc p).postponed = false →
      history.cycle.run p ≤ history.cycle.resumed p ∧ history.cycle.resumed p ≤ 1 ∧
        (kernel.phase.table = [] → kernel.phase.gathers = false → history.cycle.run p = history.cycle.resumed p)) ∧
    (kernel.initialization = true → kernel.phase.settles = true →
      ∀ p < postponedSetup.processes.length, history.cycle.run p = 1) ∧
    (kernel.initialization = false → history.repeats = false → ∀ p, (kernel.processes.proc p).postponed = true →
        history.time.run p ≤ history.time.resumed p ∧ history.time.resumed p ≤ 1 ∧
          (kernel.phase = .simulationCycle → history.time.run p =
            if kernel.nextTime = kernel.now then 0 else history.time.resumed p)) := by
  obtain ⟨kernel, history, run, seen⟩ := @exists_records idleDesign postponedSetup waitsUntilTwo _
    (fun kernel history => decide ((kernel.processes.proc 0).postponed = true ∧ history.time.run 0 = 1 ∧
      (kernel.processes.proc 1).postponed = false ∧ history.time.run 1 = 1 ∧
      kernel.phase = .simulationCycle ∧ kernel.now = 1 ∧ kernel.nextTime = 2))
    true (by decide +kernel)
  obtain ⟨postponed, once, nonpostponed, once', phase, now, next⟩ := of_decide_eq_true seen
  exact ⟨kernel, history, postponed, once, nonpostponed, once', phase, now, next, resumptions_run ⟨by decide⟩ run⟩

/-- Both processes wait for 0 ns when they are run for the first time. -/
def waitsAtOnce : List Label :=
  [.tick, .run false, .suspend (.waitFor 0), .tick, .run false, .suspend (.waitFor 0), .tick, .tick]

/-- The initialization has run the postponed process, and a cycle at the same time follows. -/
theorem initialization_runs_postponed : ∃ (kernel : Kernel) (history : History),
    postponedSetup.Records idleDesign kernel history ∧
    (kernel.processes.proc 0).postponed = true ∧ history.cycle.run 0 = 1 ∧
    kernel.phase = .simulationCycle ∧ kernel.nextTime = kernel.now := by
  obtain ⟨kernel, history, run, seen⟩ := @exists_records idleDesign postponedSetup waitsAtOnce _
    (fun kernel history => decide ((kernel.processes.proc 0).postponed = true ∧ history.cycle.run 0 = 1 ∧
      kernel.phase = .simulationCycle ∧ kernel.nextTime = kernel.now)) true (by decide +kernel)
  exact ⟨kernel, history, run, of_decide_eq_true seen⟩

/-- Every state of every run is consistent. -/
theorem kernel_consistent (wellFormed : setup.WellFormed design) {kernel : Kernel}
    (reaches : setup.Reaches design (fun _ _ => True) kernel) : kernel.Consistent design := by
  obtain ⟨⟨cells, scheduled⟩, listed⟩ := @System.Run.invariant _ _ _ (Kernel.system design) (fun _ _ => True)
    (setup.kernel design) kernel (fun kernel => (∃ cells, kernel.Scheduled design cells) ∧ kernel.Listed) reaches
    ⟨⟨[], kernel_scheduled wellFormed⟩, kernel_listed wellFormed⟩ (by
      rintro _ _ _ ⟨⟨cells, scheduled⟩, listed⟩ enabled - result
      exact ⟨scheduled.step enabled result, listed.step scheduled enabled result⟩)
  refine ⟨⟨cells, scheduled.sound⟩, scheduled.sensitive, fun again enabled => ?_⟩
  simp only [Kernel.enabled] at enabled
  split at enabled
  · next p table at' =>
    have resumed : (kernel.processes.proc p).resumed = true := listed.resumed p (by simp [at', Phase.table, Processes.toRun])
    -- The process that is run is off the lists before its wait statement is closed.
    have chain := (scheduled.sound.chain.modify p (f := fun proc => { proc with resumed := false }) fun _ => ⟨rfl, rfl⟩).modify p
      (f := fun proc => { proc with sensitivity := [] }) fun _ => ⟨rfl, rfl⟩
    obtain ⟨processes, closed, -⟩ := Processes.waitClose_spec chain scheduled.sound.length_le p
    simp only [Kernel.step, Kernel.runProcess, at', resumed, Bool.true_eq_false, if_false]
    split
    · next waits =>
      split
      · exact ⟨_, by rw [Processes.waitSuspend, if_neg (by rw [waits]; decide)]; rfl⟩
      · exact ⟨_, by rw [Kernel.removeSensitivity, closed]; rfl⟩
    · exact ⟨_, by rw [Kernel.removeSensitivity, closed]; rfl⟩
    · exact ⟨_, rfl⟩
  · cases enabled

theorem kernel_consistent_until_one : ∃ kernel : Kernel, kernel.phase = .timeouts ∧ kernel.Consistent idleDesign := by
  refine ⟨((Kernel.system idleDesign).execute (fun _ _ => True)
    (postponedSetup.kernel idleDesign) waitsUntilOne).get (by decide +kernel), by rfl, ?_⟩
  exact kernel_consistent ⟨by decide⟩ (System.run_of_execute .refl (Option.some_get _).symm)

end Setup

end Ghdl.Grt
