import Ghdl.Grt.Elaboration
import Ghdl.Grt.SignalFrames
import Ghdl.Grt.TimeoutChain

/-!
# Suspending and resuming processes

What holds of the processes whatever they do: the timeout chain holds the processes that wait for a
timeout and those that their timeout has awaked, `Process_First_Timeout` is not after any of these
timeouts, and every resumed process is in a table of processes to be run.
-/

namespace Ghdl.Grt

open Fallible Linked

/-- The processes on the chain wait for a timeout, or are to be run since it has awaked them. No process
that is to be run waits for its timeout only. -/
structure Processes.Sound (procs : Processes) (cells table : List ProcId) : Prop where
  /-- The processes on the chain. -/
  chain : procs.Chain cells
  /-- The processes on the chain are in the process table. -/
  bounded : ∀ p ∈ cells, p < procs.count
  /-- The processes on the chain wait for a timeout, or are awaked by it. -/
  suspended : ∀ p ∈ cells, (procs.proc p).state = .delayed ∨ (procs.proc p).state = .wait ∨
    (procs.proc p).state = .timeout
  /-- The resumed processes are in tables. -/
  tabled : procs.Tabled table
  /-- A resumed process is not suspended without sensitivity. -/
  awake : ∀ p, (procs.proc p).resumed = true →
    (procs.proc p).state ≠ .delayed ∧ (procs.proc p).state ≠ .dead
  /-- A process that its timeout has awaked is resumed. -/
  expired : ∀ p, (procs.proc p).state = .timeout → (procs.proc p).resumed = true
  /-- The first timeout is not after any timeout of the chain. -/
  first : ∀ p ∈ cells, (procs.proc p).HasTimeout → procs.firstTimeout ≤ (procs.proc p).timeout

namespace Processes

variable {procs procs' : Processes} {cells cells' table table' : List ProcId} {p : ProcId}

theorem Sound.update (sound : procs.Sound cells table) (p : ProcId) (chain : procs'.Chain cells')
    (tabled : procs'.Tabled table') (count : procs'.count = procs.count)
    (others : ∀ q, q ≠ p → (procs.proc q).Relinked (procs'.proc q)) (members : ∀ q ∈ cells', q ≠ p → q ∈ cells)
    (suspended : p ∈ cells' → p < procs.count ∧ ((procs'.proc p).state = .delayed ∨
      (procs'.proc p).state = .wait ∨ (procs'.proc p).state = .timeout)) (awake : (procs'.proc p).resumed = true →
      (procs'.proc p).state ≠ .delayed ∧ (procs'.proc p).state ≠ .dead)
    (expired : (procs'.proc p).state = .timeout → (procs'.proc p).resumed = true)
    (first : ∀ q ∈ cells', (procs'.proc q).HasTimeout → procs'.firstTimeout ≤ (procs'.proc q).timeout) :
    procs'.Sound cells' table' where
  chain := chain
  tabled := tabled
  first := first
  bounded q inside := by
    rw [count]
    by_cases same : q = p
    · subst same
      exact (suspended inside).1
    · exact sound.bounded q (members q inside same)
  suspended q inside := by
    by_cases same : q = p
    · subst same
      exact (suspended inside).2
    · rw [(others q same).state]
      exact sound.suspended q (members q inside same)
  awake q := by
    by_cases same : q = p
    · subst same
      exact awake
    · rw [(others q same).state, (others q same).resumed]
      exact sound.awake q
  expired q := by
    by_cases same : q = p
    · subst same
      exact expired
    · rw [(others q same).state, (others q same).resumed]
      exact sound.expired q

/-- A process that is running: it is not on the chain and not to be run. -/
structure Running (procs : Processes) (cells : List ProcId) (p : ProcId) : Prop where
  off : p ∉ cells
  idle : (procs.proc p).resumed = false
  known : p < procs.count

/-- What a call that suspends a process until a time, or without a time, does to the processes and to
the chain. -/
structure Suspends (now : Int) (p : ProcId) (delay : Option Int) (state : ProcessState)
    (sensitivity : List SignalId) (procs procs' : Processes) (cells cells' : List ProcId) :
    Prop where
  count : procs'.count = procs.count
  others : ∀ q, q ≠ p → (procs.proc q).Relinked (procs'.proc q)
  postponed : (procs'.proc p).postponed = (procs.proc p).postponed
  state : (procs'.proc p).state = state
  sensitivity : (procs'.proc p).sensitivity = sensitivity
  resumeTable : procs'.resumeTable = procs.resumeTable
  postponedTable : procs'.postponedTable = procs.postponedTable
  chain : cells' = cells ∧ procs'.firstTimeout = procs.firstTimeout ∨
    cells' = p :: cells ∧ ∃ time, delay = some time ∧ 0 ≤ time ∧
      (procs'.proc p).timeout = StdTime.add now time ∧
      procs'.firstTimeout = min (StdTime.add now time) procs.firstTimeout

theorem Sound.modify (sound : procs.Sound cells table) (running : procs.Running cells p) (f : Process → Process)
    (links : ∀ proc, (f proc).chainNext = proc.chainNext ∧ (f proc).chainPrev = proc.chainPrev)
    (flags : ∀ proc, (f proc).resumed = proc.resumed ∧ (f proc).postponed = proc.postponed)
    (state : (f (procs.proc p)).state ≠ .timeout) :
    (procs.modify p f).Sound cells table ∧ (procs.modify p f).Running cells p := by
  have idle : ((procs.modify p f).proc p).resumed = false := by
    rw [modify_self, (flags _).1]
    exact running.idle
  refine ⟨sound.update p (sound.chain.modify p links) (sound.tabled.modify p flags) rfl
    ?_ ?_ ?_ ?_ ?_ ?_, running.off, idle, running.known⟩
  · intro q different
    rw [modify_of_ne different]
    exact ⟨_, _, rfl⟩
  · exact fun q inside _ => inside
  · exact fun inside => absurd inside running.off
  · intro resumed
    rw [idle] at resumed
    exact absurd resumed (by simp)
  · intro expired
    rw [modify_self] at expired
    exact absurd expired state
  · intro q inside counts
    have different : q ≠ p := ne_of_mem_of_not_mem inside running.off
    rw [modify_of_ne different] at counts ⊢
    exact sound.first q inside counts

theorem Sound.insert (sound : procs.Sound cells table) (running : procs.Running cells p) {f : Process → Process}
    (links : ∀ proc, (f proc).chainNext = proc.chainNext ∧ (f proc).chainPrev = proc.chainPrev)
    (flags : ∀ proc, (f proc).resumed = proc.resumed ∧ (f proc).postponed = proc.postponed ∧
      (f proc).timeout = proc.timeout) (state : ∀ proc, (procs.proc p).Relinked proc →
      (f proc).state = .delayed ∨ (f proc).state = .wait) :
    ((procs.updateProcessFirstTimeout p).modify p f).Sound (p :: cells) table := by
  have fresh : procs.timeoutChain ≠ some p := fun first => running.off (sound.chain.head_mem first)
  have relinks := sound.chain.insert_relinked running.off
  have tabled : (procs.updateProcessFirstTimeout p).Tabled table := by
    rw [updateProcessFirstTimeout_eq procs p fresh]
    exact sound.tabled.congr (fun q => ⟨rfl, rfl⟩) rfl rfl rfl
  have count : (procs.updateProcessFirstTimeout p).count = procs.count := by
    rw [updateProcessFirstTimeout_eq procs p fresh]
  have first : (procs.updateProcessFirstTimeout p).firstTimeout =
      min (procs.proc p).timeout procs.firstTimeout := by
    rw [updateProcessFirstTimeout_eq procs p fresh]
  refine sound.update p ((sound.chain.insert running.off).modify p links)
    (tabled.modify p fun proc => ⟨(flags proc).1, (flags proc).2.1⟩) count ?_ ?_ ?_ ?_ ?_ ?_
  · intro q different
    rw [modify_of_ne different]
    exact relinks q
  · exact fun q inside different => (List.mem_cons.mp inside).resolve_left different
  · intro _
    rw [modify_self]
    exact ⟨running.known, (state _ (relinks p)).imp_right .inl⟩
  · intro resumed
    rw [modify_self, (flags _).1, (relinks p).resumed, running.idle] at resumed
    exact absurd resumed (by simp)
  · intro expired
    rw [modify_self] at expired
    rcases state _ (relinks p) with delayed | waits
    · exact absurd (delayed.symm.trans expired) (by decide)
    · exact absurd (waits.symm.trans expired) (by decide)
  · intro q inside counts
    show (procs.updateProcessFirstTimeout p).firstTimeout ≤ _
    rw [first]
    by_cases same : q = p
    · rw [same, modify_self, (flags _).2.2, (relinks p).timeout]
      exact min_le_left _ _
    rw [modify_of_ne same] at counts ⊢
    have before : (procs.proc q).HasTimeout := by
      have states := (relinks q).state
      have times := (relinks q).timeout
      unfold Process.HasTimeout at counts ⊢
      rwa [states, times] at counts
    rw [(relinks q).timeout]
    exact (min_le_right _ _).trans (sound.first q ((List.mem_cons.mp inside).resolve_left same) before)

theorem suspends_modify (now : Int) (p : ProcId) (delay : Option Int) (procs : Processes)
    (cells : List ProcId) (f : Process → Process) (flags : (f (procs.proc p)).postponed = (procs.proc p).postponed) :
    Suspends now p delay (f (procs.proc p)).state (f (procs.proc p)).sensitivity procs
      (procs.modify p f) cells cells where
  count := rfl
  others q different := by
    rw [modify_of_ne different]
    exact ⟨_, _, rfl⟩
  postponed := by rw [modify_self, flags]
  state := by rw [modify_self]
  sensitivity := by rw [modify_self]
  resumeTable := rfl
  postponedTable := rfl
  chain := .inl ⟨rfl, rfl⟩

variable {now time : Int}

theorem insert_suspends (sound : procs.Sound cells table)
    (running : procs.Running cells p) (f : Process → Process) (positive : 0 ≤ time)
    (before : (procs.proc p).timeout = StdTime.add now time)
    (flags : ∀ proc, (f proc).postponed = proc.postponed ∧ (f proc).timeout = proc.timeout)
    {state : ProcessState} {sensitivity : List SignalId} (record : ∀ proc, (procs.proc p).Relinked proc →
      (f proc).state = state ∧ (f proc).sensitivity = sensitivity) : Suspends now p (some time) state sensitivity procs
      ((procs.updateProcessFirstTimeout p).modify p f) cells (p :: cells) := by
  have relinks := sound.chain.insert_relinked running.off
  rw [updateProcessFirstTimeout_eq procs p fun first => running.off (sound.chain.head_mem first)] at relinks ⊢
  refine ⟨rfl, fun q different => ?_, ?_, ?_, ?_, rfl, rfl, .inr ⟨rfl, time, rfl, positive, ?_, ?_⟩⟩
  · rw [modify_of_ne different]
    exact relinks q
  · rw [modify_self, (flags _).1, (relinks p).postponed]
  · rw [modify_self]
    exact (record _ (relinks p)).1
  · rw [modify_self]
    exact (record _ (relinks p)).2
  · rw [modify_self, (flags _).2, (relinks p).timeout, before]
  · rw [← before]
    rfl

theorem Suspends.trans {delay : Option Int} {procs'' : Processes}
    {state state' : ProcessState} {sensitivity sensitivity' : List SignalId}
    (first : Suspends now p none state sensitivity procs procs' cells cells)
    (second : Suspends now p delay state' sensitivity' procs' procs'' cells cells') :
    Suspends now p delay state' sensitivity' procs procs'' cells cells' where
  count := second.count.trans first.count
  others q different := (first.others q different).trans (second.others q different)
  postponed := second.postponed.trans first.postponed
  state := second.state
  sensitivity := second.sensitivity
  resumeTable := second.resumeTable.trans first.resumeTable
  postponedTable := second.postponedTable.trans first.postponedTable
  chain := by
    have same : procs'.firstTimeout = procs.firstTimeout := by
      rcases first.chain with ⟨-, same⟩ | ⟨-, time, impossible, -⟩
      · exact same
      · exact absurd impossible (by simp)
    have chain := second.chain
    rwa [same] at chain

/-- The record of a process that is suspended until a time, without sensitivity. -/
def delayUntil (timeout : Int) (proc : Process) : Process := { proc with timeout, state := .delayed }

theorem delay_spec (positive : 0 ≤ time) (sound : procs.Sound cells table) (running : procs.Running cells p) :
    ((procs.modify p (delayUntil (StdTime.add now time))).updateProcessFirstTimeout p).Sound (p :: cells) table ∧
      Suspends now p (some time) .delayed (procs.proc p).sensitivity procs
        ((procs.modify p (delayUntil (StdTime.add now time))).updateProcessFirstTimeout p) cells (p :: cells) := by
  obtain ⟨changed, running'⟩ := sound.modify running (delayUntil (StdTime.add now time))
    (fun _ => ⟨rfl, rfl⟩) (fun _ => ⟨rfl, rfl⟩) (by simp [delayUntil])
  have first := suspends_modify now p none procs cells (delayUntil (StdTime.add now time)) rfl
  have record : ∀ proc, ((procs.modify p (delayUntil (StdTime.add now time))).proc p).Relinked proc →
      proc.state = .delayed ∧ proc.sensitivity = (procs.proc p).sensitivity := fun proc relinked => by
    rw [relinked.state, relinked.sensitivity, modify_self]
    exact ⟨rfl, rfl⟩
  rw [← modify_id ((procs.modify p (delayUntil (StdTime.add now time))).updateProcessFirstTimeout p) p]
  refine ⟨changed.insert running' (fun _ => ⟨rfl, rfl⟩) (fun _ => ⟨rfl, rfl, rfl⟩)
    (fun proc relinked => .inl (record proc relinked).1), first.trans ?_⟩
  exact insert_suspends changed running' id positive (by rw [modify_self]; rfl) (fun _ => ⟨rfl, rfl⟩) record

/-- `Ghdl_Process_Delay`. -/
theorem processDelay_spec (now : Int) (del : Nat) (sound : procs.Sound cells table) (running : procs.Running cells p) :
    (procs.processDelay now p del).Sound (p :: cells) table ∧
      Suspends now p (some (del : Int)) .delayed (procs.proc p).sensitivity procs
        (procs.processDelay now p del) cells (p :: cells) := by
  have same : procs.processDelay now p del =
      (procs.modify p (delayUntil (StdTime.add now del))).updateProcessFirstTimeout p := by
    rw [processDelay, setTimeout, setState, modify_modify]
    rfl
  rw [same]
  exact delay_spec (Int.natCast_nonneg del) sound running

/-- `Ghdl_Process_Wait_Timeout`. -/
theorem waitTimeout_spec (sound : procs.Sound cells table)
    (running : procs.Running cells p) (result : procs.waitTimeout now p time = .ok procs') :
    (procs.proc p).state ≠ .sensitized ∧ ∃ cells', procs'.Sound cells' table ∧
      Suspends now p (some time) .delayed (procs.proc p).sensitivity procs procs' cells cells' := by
  unfold waitTimeout at result
  split at result
  · simp at result
  · next dynamic =>
    refine ⟨dynamic, ?_⟩
    split at result
    · simp at result
    · next positive =>
      dsimp only at result
      split at result
      · rw [← Except.ok.inj result, setTimeout, setState, modify_modify]
        exact ⟨p :: cells, delay_spec (not_lt.mp positive) sound running⟩
      · rw [← Except.ok.inj result, setTimeout, setState, modify_modify]
        exact ⟨cells, (sound.modify running (delayUntil StdTime.last) (fun _ => ⟨rfl, rfl⟩)
          (fun _ => ⟨rfl, rfl⟩) (by simp [delayUntil])).1,
          suspends_modify now p _ procs cells (delayUntil StdTime.last) rfl⟩

/-- `Ghdl_Process_Wait_Exit`. -/
theorem waitExit_spec (now : Int) (sound : procs.Sound cells table)
    (running : procs.Running cells p) (result : procs.waitExit p = .ok procs') :
    (procs.proc p).state ≠ .sensitized ∧ procs'.Sound cells table ∧
      Suspends now p none .dead (procs.proc p).sensitivity procs procs' cells cells := by
  unfold waitExit at result
  split at result
  · simp at result
  · next dynamic =>
    rw [← Except.ok.inj result]
    exact ⟨dynamic, (sound.modify running (fun proc => { proc with state := .dead }) (fun _ => ⟨rfl, rfl⟩)
      (fun _ => ⟨rfl, rfl⟩) (by simp)).1,
      suspends_modify now p _ procs cells (fun proc => { proc with state := .dead }) rfl⟩

/-- The record of a process that waits, more signals being added to its sensitivity. -/
def suspendOn (added : List SignalId) (proc : Process) : Process :=
  { proc with sensitivity := added ++ proc.sensitivity, state := .wait }

/-- The timeout of a wait statement is set when the statement has one. -/
def startWait (procs : Processes) (now : Int) (p : ProcId) (timeout : Option Int) : Except GrtError Processes :=
  match timeout with
  | none => .ok procs
  | some time => procs.waitSetTimeout now p time

/-- `Ghdl_Process_Wait_Set_Timeout` and `Ghdl_Process_Wait_Suspend`, with the signals to which the process
gets sensitive in between. -/
theorem wait_spec {timeout : Option Int} {waiting : Processes} (added : List SignalId) (sound : procs.Sound cells table)
    (running : procs.Running cells p) (started : procs.startWait now p timeout = .ok waiting)
    (result : (waiting.modify p fun proc =>
      { proc with sensitivity := added ++ proc.sensitivity }).waitSuspend p = .ok procs') :
    (procs.proc p).state ≠ .sensitized ∧ ∃ cells', procs'.Sound cells' table ∧
      Suspends now p timeout .wait (added ++ (procs.proc p).sensitivity) procs procs' cells cells' := by
  unfold waitSuspend at result
  split at result
  · simp at result
  · next dynamic =>
    rw [modify_self] at dynamic
    rw [← Except.ok.inj result, setState, modify_modify]
    cases timeout with
    | none =>
      obtain rfl := Except.ok.inj started
      exact ⟨dynamic, cells, (sound.modify running (suspendOn added) (fun _ => ⟨rfl, rfl⟩)
        (fun _ => ⟨rfl, rfl⟩) (by simp [suspendOn])).1,
        suspends_modify now p _ procs cells (suspendOn added) rfl⟩
    | some time =>
      simp only [startWait, waitSetTimeout] at started
      split at started
      · simp at started
      · next positive =>
        obtain rfl := Except.ok.inj started
        have expired : (procs.proc p).state ≠ .timeout := fun expired => by
          have resumed := sound.expired p expired
          rw [running.idle] at resumed
          exact absurd resumed (by simp)
        obtain ⟨changed, running'⟩ := sound.modify running
          (fun proc => { proc with timeout := StdTime.add now time })
          (fun _ => ⟨rfl, rfl⟩) (fun _ => ⟨rfl, rfl⟩) expired
        have first := suspends_modify now p none procs cells
          (fun proc => { proc with timeout := StdTime.add now time }) rfl
        have relinked := changed.chain.insert_relinked running.off p
        rw [modify_self] at relinked
        refine ⟨?_, p :: cells, changed.insert running' (fun _ => ⟨rfl, rfl⟩)
          (fun _ => ⟨rfl, rfl, rfl⟩) (fun _ _ => .inr rfl), first.trans ?_⟩
        · exact fun sensitized => dynamic (relinked.state.trans sensitized)
        refine insert_suspends changed running' (suspendOn added) (not_lt.mp positive)
          (by rw [modify_self]) (fun _ => ⟨rfl, rfl⟩) fun proc relinked => ⟨rfl, ?_⟩
        rw [suspendOn, relinked.sensitivity, modify_self]

end Processes

namespace Kernel

variable {kernel kernel' : Kernel} {cells table : List ProcId} {p : ProcId}

theorem waitAddSensitivities_eq (kernel : Kernel) (p : ProcId) (sensitivity : List SignalId) :
    sensitivity.foldl (fun kernel sig => kernel.waitAddSensitivity p sig) kernel =
      { kernel with
        signals := { kernel.signals with
          eventList := fun sig => List.replicate (sensitivity.count sig) ⟨true, p⟩ ++ kernel.signals.eventList sig }
        processes := kernel.processes.modify p fun proc =>
          { proc with sensitivity := sensitivity.reverse ++ proc.sensitivity } } := by
  induction sensitivity generalizing kernel with
  | nil =>
    have same : (kernel.processes.modify p fun proc => { proc with
        sensitivity := [].reverse ++ proc.sensitivity }) = kernel.processes :=
      kernel.processes.modify_id p
    rw [same]
    rfl
  | cons sig sensitivity ih =>
    have lists : (fun sig' => List.replicate (sensitivity.count sig') (ActionCell.mk true p) ++
          Function.update kernel.signals.eventList sig (⟨true, p⟩ :: kernel.signals.eventList sig) sig') =
        fun sig' => List.replicate ((sig :: sensitivity).count sig') ⟨true, p⟩ ++ kernel.signals.eventList sig' := by
      funext sig'
      by_cases same : sig' = sig
      · subst same
        rw [Function.update_self, List.count_cons_self, List.replicate_succ', List.append_assoc]
        rfl
      · rw [Function.update_of_ne same, List.count_cons_of_ne (Ne.symm same)]
    rw [List.foldl_cons, ih]
    simp only [waitAddSensitivity, Processes.modify_modify, lists, List.reverse_cons,
      List.append_assoc, List.singleton_append]

theorem suspend_wait {timeout : Option Int} {sensitivity : List SignalId}
    (result : kernel.suspend p (.wait timeout sensitivity) = .ok kernel') : ∃ waiting processes,
      kernel.processes.startWait kernel.now p timeout = .ok waiting ∧
      (waiting.modify p fun proc => { proc with sensitivity := sensitivity.reverse ++ proc.sensitivity }).waitSuspend p =
        .ok processes ∧
      kernel' = { kernel with
        processes := processes
        signals := { kernel.signals with
          eventList := fun sig => List.replicate (sensitivity.count sig) ⟨true, p⟩ ++
            kernel.signals.eventList sig } } := by
  have started : ∃ waiting, kernel.processes.startWait kernel.now p timeout = Except.ok waiting ∧
      ((sensitivity.foldl (fun (kernel : Kernel) sig => kernel.waitAddSensitivity p sig)
          { kernel with processes := waiting }).processes.waitSuspend p >>= fun processes =>
        .ok { sensitivity.foldl (fun (kernel : Kernel) sig => kernel.waitAddSensitivity p sig)
          { kernel with processes := waiting } with processes }) = Except.ok kernel' := by
    cases timeout with
    | none => exact ⟨_, rfl, result⟩
    | some time => exact bind_ok.mp result
  obtain ⟨waiting, started, result⟩ := started
  obtain ⟨processes, suspended, result⟩ := bind_ok.mp result
  rw [waitAddSensitivities_eq] at result suspended
  exact ⟨waiting, processes, started, suspended, (Except.ok.inj result).symm⟩

theorem suspend_frame {suspension : Suspension} (result : kernel.suspend p suspension = .ok kernel') :
    kernel' = { kernel with
      processes := kernel'.processes
      signals := { kernel.signals with eventList := kernel'.signals.eventList } } := by
  cases suspension with
  | wait timeout sensitivity =>
    obtain ⟨_, _, -, -, rfl⟩ := suspend_wait result
    rfl
  | waitFor time | waitExit =>
    obtain ⟨processes, -, result⟩ := bind_ok.mp result
    rw [← Except.ok.inj result]
  | delay | finish => rw [← Except.ok.inj result]

end Kernel

end Ghdl.Grt
