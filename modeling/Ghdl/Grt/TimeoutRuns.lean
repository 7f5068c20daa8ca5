import Ghdl.Grt.ResumeTables
import Ghdl.Grt.Timeouts
import Ghdl.Grt.TransactionTimes

/-!
# The timeouts of processes

Without postponed processes and overflows, the timeout chain holds exactly the processes that wait until a
time and those that their timeout has just awaked, and `Process_First_Timeout` is the earliest of the times for
which a process waits. So no time for which a process waits is passed, and the scan of the chain at that time
resumes the process.
-/

namespace Ghdl.Grt

open Fallible Linked Transition Function

/-- The process is suspended. -/
def Process.Suspended (proc : Process) : Prop := proc.state = .delayed ∨ proc.state = .wait

instance (proc : Process) : Decidable proc.Suspended := inferInstanceAs (Decidable (_ ∨ _))

theorem Process.Relinked.suspended {proc proc' : Process} (relinked : proc.Relinked proc') :
    proc'.Suspended ↔ proc.Suspended := by
  obtain ⟨_, _, rfl⟩ := relinked
  exact Iff.rfl

section NextTime

variable {design : Design} {now res res' : Int} {state state' : SignalState} {sig : SignalId}

theorem considerTime_le (state : SignalState) (res : Int) (sig : SignalId) (time : Int) :
    (considerTime design state res sig time).2 ≤ res := by
  unfold considerTime
  split
  · exact le_refl res
  · split
    · next earlier => exact le_of_lt earlier
    · exact le_refl res

/-- `Check_Transaction`. -/
theorem checkTransaction_le {trans : Option Transaction}
    (result : checkTransaction design now state res sig trans = .ok (state', res')) : res' ≤ res := by
  unfold checkTransaction at result
  split at result
  · simp only [Except.ok.injEq, Prod.mk.injEq] at result
    exact le_of_eq result.2.symm
  · split at result
    · simp only [Except.ok.injEq, Prod.mk.injEq] at result
      exact le_of_eq result.2.symm
    · split at result
      · simp at result
      · next next _ _ =>
        have earlier := @considerTime_le design state res sig next.time
        rwa [Except.ok.inj result] at earlier

theorem checkDrivers_le {drivers : List Driver}
    (result : checkDrivers design now sig drivers state res = .ok (state', res')) : res' ≤ res := by
  induction drivers generalizing state res with
  | nil =>
    simp only [checkDrivers, Except.ok.injEq, Prod.mk.injEq] at result
    exact le_of_eq result.2.symm
  | cons driver drivers ih =>
    simp only [checkDrivers, bind_ok] at result
    obtain ⟨trans, -, ⟨middle, time⟩, checked, result⟩ := result
    exact (ih result).trans (checkTransaction_le checked)

theorem checkSignal_le (result : checkSignal design now state res sig = .ok (state', res')) : res' ≤ res := by
  unfold checkSignal at result
  split at result
  · exact checkDrivers_le result
  · split at result
    · exact checkTransaction_le result
    · simp at result

theorem checkFuture_le {fuel : Nat} {start : SignalPtr}
    (result : checkFuture design now fuel state res start = .ok (state', res')) : res' ≤ res := by
  induction fuel generalizing state res start with
  | zero =>
    cases start with
    | none =>
      simp only [checkFuture, Except.ok.injEq, Prod.mk.injEq] at result
      exact le_of_eq result.2.symm
    | some sig => simp [checkFuture] at result
  | succ fuel ih =>
    cases start with
    | none =>
      simp only [checkFuture, Except.ok.injEq, Prod.mk.injEq] at result
      exact le_of_eq result.2.symm
    | some sig =>
      simp only [checkFuture] at result
      split at result
      · simp only [Except.ok.injEq, Prod.mk.injEq] at result
        exact le_of_eq result.2.symm
      · obtain ⟨⟨middle, time⟩, checked, result⟩ := bind_ok.mp result
        exact (ih result).trans (checkSignal_le checked)

/-- The next cycle is not after the time from which the search starts, unless it is a delta cycle. -/
theorem findNextTime_le {tn : Int} (result : findNextTime design now state tn = .ok (state', res)) :
    res ≤ tn ∨ res = now := by
  unfold findNextTime at result
  split at result
  · simp only [Except.ok.injEq, Prod.mk.injEq] at result
    exact .inr result.2.symm
  · split at result
    · simp only [Except.ok.injEq, Prod.mk.injEq] at result
      exact .inr result.2.symm
    · split at result
      · simp only [Except.ok.injEq, Prod.mk.injEq] at result
        exact .inr result.2.symm
      · exact .inl (checkFuture_le result)

/-- `Compute_Next_Time`: no process has its timeout before the next cycle. -/
theorem Kernel.computeNextTime_le {kernel kernel' : Kernel} {tn : Int}
    (result : kernel.computeNextTime design = .ok (kernel', tn)) :
    tn ≤ kernel.processes.firstTimeout ∨ tn = kernel.now := by
  unfold Kernel.computeNextTime at result
  dsimp only at result
  split at result
  · next same =>
    simp only [Except.ok.injEq, Prod.mk.injEq] at result
    exact .inr (result.2.symm.trans same)
  · obtain ⟨⟨signals, res⟩, found, result⟩ := bind_ok.mp result
    simp only [Except.ok.injEq, Prod.mk.injEq] at result
    obtain ⟨-, rfl⟩ := result
    refine (findNextTime_le found).imp_left fun earlier => earlier.trans ?_
    exact (min_le_left _ _).trans (min_le_right _ _)

end NextTime

namespace Processes

variable {now : Int} {procs procs' : Processes} {cells cells' : List ProcId} {p : ProcId}

theorem Chain.unique (chain : procs.Chain cells) (chain' : procs.Chain cells') : cells = cells' :=
  chain.path.segment.unique chain'.path.segment

/-- The processes that wait until a time are on the chain, and the first timeout is the earliest of these
times. -/
structure Timed (now : Int) (procs : Processes) (cells : List ProcId) : Prop where
  /-- A process that is not on the chain has no timeout. -/
  off : ∀ p, p ∉ cells → (procs.proc p).timeout = StdTime.bad
  /-- A process that its timeout has awaked has no timeout. -/
  expired : ∀ p, (procs.proc p).state = .timeout → (procs.proc p).timeout = StdTime.bad
  /-- The time for which a process waits is not over. -/
  pending : ∀ p ∈ cells, (procs.proc p).Suspended →
    now ≤ (procs.proc p).timeout ∧ (procs.proc p).timeout ≤ StdTime.last
  /-- No process waits for a time before the first timeout. -/
  least : ∀ p ∈ cells, (procs.proc p).Suspended → procs.firstTimeout ≤ (procs.proc p).timeout
  /-- A process waits for the first timeout, unless it is `Time'High`. -/
  attained : procs.firstTimeout = StdTime.last ∨
    ∃ p ∈ cells, (procs.proc p).Suspended ∧ (procs.proc p).timeout = procs.firstTimeout

namespace Timed

/-- The first timeout is not over either. -/
theorem bounds (timed : procs.Timed now cells) (fits : now ≤ StdTime.last) :
    now ≤ procs.firstTimeout ∧ procs.firstTimeout ≤ StdTime.last := by
  rcases timed.attained with first | ⟨p, inside, suspended, first⟩
  · exact ⟨first ▸ fits, le_of_eq first⟩
  · exact first ▸ timed.pending p inside suspended

/-- The timeouts do not depend on the flags. -/
theorem congr (timed : procs.Timed now cells) (same : ∀ q, (procs'.proc q).state = (procs.proc q).state ∧
      (procs'.proc q).timeout = (procs.proc q).timeout)
    (first : procs'.firstTimeout = procs.firstTimeout) : procs'.Timed now cells := by
  have suspended : ∀ q, (procs'.proc q).Suspended ↔ (procs.proc q).Suspended := fun q => by
    unfold Process.Suspended
    rw [(same q).1]
  constructor
  · intro q outside
    rw [(same q).2]
    exact timed.off q outside
  · intro q state
    rw [(same q).2]
    exact timed.expired q ((same q).1 ▸ state)
  · intro q inside state
    rw [(same q).2]
    exact timed.pending q inside ((suspended q).mp state)
  · intro q inside state
    rw [(same q).2, first]
    exact timed.least q inside ((suspended q).mp state)
  · rw [first]
    refine timed.attained.imp_right fun ⟨q, inside, state, timeout⟩ => ⟨q, inside, ?_, ?_⟩
    · exact (suspended q).mpr state
    · rw [(same q).2, timeout]

/-- The time goes on to the first timeout at most. -/
theorem advance {time : Int} (timed : procs.Timed now cells) (early : time ≤ procs.firstTimeout) :
    procs.Timed time cells :=
  { timed with
    pending := fun p inside suspended =>
      ⟨early.trans (timed.least p inside suspended), (timed.pending p inside suspended).2⟩ }

end Timed

theorem Sound.awake_chain {table : List ProcId} (sound : procs.Sound cells table)
    (result : procs.awake now = .ok procs') (due : now = procs.firstTimeout) : procs'.Chain (cells.filter fun p =>
      ¬((procs.proc p).Due now ∧ (procs.proc p).state = .delayed)) := by
  have waits : ∀ p ∈ cells, (procs.proc p).Suspended := by
    intro p inside
    rcases sound.suspended p inside with state | state | state
    · exact .inl state
    · exact .inr state
    · exact absurd state (sound.awake_suspended result due p inside)
  unfold Processes.awake at result
  rw [if_pos due] at result
  obtain ⟨⟨scanned, tn⟩, scan, result⟩ := bind_ok.mp result
  have fits := sound.length_le
  obtain ⟨procs'', scan', chain, -⟩ :=
    @awakeFrom_spec procs now StdTime.last (procs.count + 1) [] cells procs.timeoutChain
      sound.chain (by omega) sound.chain.path.segment.start_eq waits
  obtain ⟨rfl, -⟩ := Prod.mk.inj (Except.ok.inj (scan'.symm.trans scan))
  rw [List.nil_append] at chain
  rw [← Except.ok.inj result]
  exact chain.congr (fun _ => rfl) (fun _ => rfl) rfl

theorem Timed.awake {table : List ProcId} (timed : procs.Timed now cells)
    (sound : procs.Sound cells table) (positive : 0 ≤ now) (fits : now ≤ StdTime.last)
    (result : procs.awake now = .ok procs') (awakes : Awakes now procs procs' cells cells')
    (chain' : procs'.Chain cells') : procs'.Timed now cells' ∧
      ∀ p ∈ cells', (procs'.proc p).Suspended → now < (procs'.proc p).timeout := by
  by_cases due : now = procs.firstTimeout
  · have filtered := chain'.unique (sound.awake_chain result due)
    have first : procs'.firstTimeout =
        procs.earliest StdTime.last (cells.filter fun q => ¬(procs.proc q).Due now) := by
      rcases awakes.first with ⟨other, -⟩ | ⟨-, first⟩
      · exact absurd due other
      · exact first
    have outside : ∀ q, q ∉ cells → (procs.proc q).Relinked (procs'.proc q) := fun q outside => by
      have relinked := awakes.relinks q
      rwa [if_neg fun both => outside both.2] at relinked
    have inside : ∀ q ∈ cells, ((procs.proc q).awaken now).Relinked (procs'.proc q) := fun q inside => by
      have relinked := awakes.relinks q
      rwa [if_pos ⟨due, inside⟩] at relinked
    -- A process that still waits was not due, and its record is the same.
    have waits : ∀ q ∈ cells, (procs'.proc q).Suspended →
        ¬(procs.proc q).Due now ∧ (procs.proc q).Suspended ∧ (procs'.proc q).timeout = (procs.proc q).timeout := by
      intro q member suspended
      have suspended := (inside q member).suspended.mp suspended
      rcases awaken_state now (awakes.suspended due q member) with
        ⟨-, notDue, same⟩ | ⟨-, -, ⟨state, -⟩ | ⟨state, -⟩⟩
      · refine ⟨notDue, awakes.suspended due q member, ?_⟩
        rw [(inside q member).timeout, same]
      all_goals simp [Process.Suspended, state] at suspended
    have later : ∀ q ∈ cells, (procs.proc q).Suspended → ¬(procs.proc q).Due now →
        now < (procs.proc q).timeout := fun q member suspended notDue =>
      lt_of_le_of_ne (timed.pending q member suspended).1 fun same => notDue ⟨suspended, same.symm⟩
    refine ⟨⟨fun q off => ?_, fun q state => ?_, fun q member suspended => ?_,
      fun q member suspended => ?_, ?_⟩, fun q member suspended => ?_⟩
    · by_cases member : q ∈ cells
      · have isDue : (procs.proc q).Due now := by
          by_contra notDue
          refine off ?_
          rw [filtered]
          exact List.mem_filter.mpr ⟨member, by simp [notDue]⟩
        rw [(inside q member).timeout, Process.awaken, if_pos isDue]
      · rw [(outside q member).timeout]
        exact timed.off q member
    · by_cases member : q ∈ cells
      · rw [(inside q member).state] at state
        rw [(inside q member).timeout]
        by_cases isDue : (procs.proc q).Due now
        · rw [Process.awaken, if_pos isDue]
        · rw [Process.awaken, if_neg isDue] at state ⊢
          exact timed.expired q state
      · rw [(outside q member).state] at state
        rw [(outside q member).timeout]
        exact timed.expired q state
    · obtain ⟨-, before, same⟩ := waits q (awakes.members q member) suspended
      rw [same]
      exact timed.pending q (awakes.members q member) before
    · obtain ⟨notDue, before, same⟩ := waits q (awakes.members q member) suspended
      have positive : 0 < (procs.proc q).timeout :=
        lt_of_le_of_lt positive (later q (awakes.members q member) before notDue)
      rw [same, first]
      exact earliest_le_timeout
        (List.mem_filter.mpr ⟨awakes.members q member, by simpa using notDue⟩) ⟨before, positive⟩
    · rw [first]
      refine (earliest_cases procs StdTime.last _).imp_right fun chosen => ?_
      obtain ⟨q, kept, counts, same⟩ := chosen
      obtain ⟨member, notDue⟩ := List.mem_filter.mp kept
      have notDue : ¬(procs.proc q).Due now := by simpa using notDue
      have relinked := inside q member
      rw [Process.awaken, if_neg notDue] at relinked
      refine ⟨q, ?_, relinked.suspended.mpr counts.1, relinked.timeout.trans same.symm⟩
      rw [filtered]
      exact List.mem_filter.mpr ⟨member, by simp [notDue]⟩
    · obtain ⟨notDue, before, same⟩ := waits q (awakes.members q member) suspended
      rw [same]
      exact later q (awakes.members q member) before notDue
  · unfold Processes.awake at result
    rw [if_neg due] at result
    obtain rfl := Except.ok.inj result
    obtain rfl := chain'.unique sound.chain
    refine ⟨timed, fun q member suspended => ?_⟩
    exact lt_of_lt_of_le (lt_of_le_of_ne (timed.bounds fits).1 due) (timed.least q member suspended)

theorem Timed.waitClose (timed : procs.Timed now cells) (chain : procs.Chain cells)
    (bounded : cells.length ≤ procs.count) (positive : 0 ≤ now) (fits : now ≤ StdTime.last)
    (state : p ∈ cells → (procs.proc p).Suspended ∧ now < (procs.proc p).timeout ∨ (procs.proc p).state = .timeout)
    (closed : procs.waitClose p = .ok procs') : procs'.Timed now (cells.erase p) := by
  obtain ⟨procs'', closed', chain', relinks, -, -, -, first⟩ := waitClose_spec chain bounded p
  obtain rfl := Except.ok.inj (closed'.symm.trans closed)
  have others : ∀ q, q ≠ p → (procs.proc q).Relinked (procs''.proc q) := fun q different => by
    have relinked := relinks q
    rwa [modify_of_ne different] at relinked
  have self := relinks p
  rw [modify_self] at self
  have member : ∀ q ∈ cells.erase p, q ≠ p ∧ q ∈ cells := fun q inside =>
    (chain.nodup.mem_erase_iff).mp inside
  -- When the first timeout is that of the process, the others wait for a time after the present.
  have later : procs.firstTimeout = (procs.proc p).timeout → 0 < procs.firstTimeout := by
    intro same
    have early := (timed.bounds fits).1
    have none : (procs.proc p).timeout = StdTime.bad → 0 < procs.firstTimeout := fun none => by
      rw [same, none] at early
      exact absurd (positive.trans early) (by decide)
    by_cases inside : p ∈ cells
    · rcases state inside with ⟨-, after⟩ | expired
      · rw [same]
        exact lt_of_le_of_lt positive after
      · exact none (timed.expired p expired)
    · exact none (timed.off p inside)
  constructor
  · intro q off
    by_cases same : q = p
    · rw [same, self.timeout]
    · rw [(others q same).timeout]
      exact timed.off q fun inside => off (chain.nodup.mem_erase_iff.mpr ⟨same, inside⟩)
  · intro q expired
    by_cases same : q = p
    · rw [same, self.timeout]
    · rw [(others q same).state] at expired
      rw [(others q same).timeout]
      exact timed.expired q expired
  · intro q inside suspended
    obtain ⟨different, inside⟩ := member q inside
    rw [(others q different).timeout]
    exact timed.pending q inside ((others q different).suspended.mp suspended)
  · intro q inside suspended
    obtain ⟨different, before⟩ := member q inside
    have suspended := (others q different).suspended.mp suspended
    rw [(others q different).timeout, first]
    split
    · next same =>
      have positive := lt_of_lt_of_le (later same) (timed.least q before suspended)
      exact earliest_le_timeout inside ⟨suspended, positive⟩
    · exact timed.least q before suspended
  · rw [first]
    split
    · refine (earliest_cases procs StdTime.last _).imp_right fun ⟨q, inside, counts, same⟩ => ?_
      have different := (member q inside).1
      exact ⟨q, inside, (others q different).suspended.mpr counts.1, (others q different).timeout.trans same.symm⟩
    · next other =>
      refine timed.attained.imp_right fun ⟨q, inside, suspended, timeout⟩ => ?_
      have different : q ≠ p := fun same => other (by rw [← timeout, same])
      exact ⟨q, chain.nodup.mem_erase_iff.mpr ⟨different, inside⟩,
        (others q different).suspended.mpr suspended, (others q different).timeout.trans timeout⟩

theorem Timed.suspends {delay : Option Int} {state : ProcessState} {sensitivity : List SignalId}
    (timed : procs.Timed now cells) (positive : 0 ≤ now)
    (suspends : Suspends now p delay state sensitivity procs procs' cells cells')
    (off : p ∉ cells) (other : state ≠ .timeout) (fits : ∀ time ∈ delay, now + time ≤ StdTime.last)
    (waits : p ∈ cells' → (procs'.proc p).Suspended)
    (stays : cells' = cells → (procs'.proc p).timeout = StdTime.bad) : procs'.Timed now cells' := by
  have others : ∀ q, q ≠ p → (procs.proc q).Relinked (procs'.proc q) := suspends.others
  have expired : ∀ q, (procs'.proc q).state = .timeout → (procs'.proc q).timeout = StdTime.bad := by
    intro q state
    by_cases same : q = p
    · subst same
      exact absurd (suspends.state.symm.trans state) other
    · rw [(others q same).state] at state
      rw [(others q same).timeout]
      exact timed.expired q state
  have elsewhere : ∀ q ∈ cells, q ≠ p := fun q inside => ne_of_mem_of_not_mem inside off
  rcases suspends.chain with ⟨same, first⟩ | ⟨same, time, delayed, nonnegative, timeout, first⟩
  · have self := stays same
    subst same
    refine ⟨fun q outside => ?_, expired, fun q inside suspended => ?_, fun q inside suspended => ?_, ?_⟩
    · by_cases same : q = p
      · rw [same, self]
      · rw [(others q same).timeout]
        exact timed.off q outside
    · rw [(others q (elsewhere q inside)).timeout]
      exact timed.pending q inside ((others q (elsewhere q inside)).suspended.mp suspended)
    · rw [(others q (elsewhere q inside)).timeout, first]
      exact timed.least q inside ((others q (elsewhere q inside)).suspended.mp suspended)
    · rw [first]
      exact timed.attained.imp_right fun ⟨q, inside, suspended, same⟩ =>
        ⟨q, inside, (others q (elsewhere q inside)).suspended.mpr suspended,
          (others q (elsewhere q inside)).timeout.trans same⟩
  · have fits := fits time delayed
    rw [StdTime.add_exact positive nonnegative fits] at timeout first
    subst same
    refine ⟨fun q outside => ?_, expired, fun q inside suspended => ?_, fun q inside suspended => ?_, ?_⟩
    · simp only [List.mem_cons, not_or] at outside
      rw [(others q outside.1).timeout]
      exact timed.off q outside.2
    · rcases List.mem_cons.mp inside with rfl | inside
      · rw [timeout]
        exact ⟨by omega, fits⟩
      · rw [(others q (elsewhere q inside)).timeout]
        exact timed.pending q inside ((others q (elsewhere q inside)).suspended.mp suspended)
    · rw [first]
      rcases List.mem_cons.mp inside with rfl | inside
      · rw [timeout]
        exact min_le_left _ _
      · rw [(others q (elsewhere q inside)).timeout]
        exact (min_le_right _ _).trans (timed.least q inside ((others q (elsewhere q inside)).suspended.mp suspended))
    · rw [first]
      rcases min_choice (now + time) procs.firstTimeout with least | least
      · rw [least]
        exact .inr ⟨p, List.mem_cons_self, waits List.mem_cons_self, timeout⟩
      rw [least]
      exact timed.attained.imp_right fun ⟨q, inside, suspended, same⟩ =>
        ⟨q, List.mem_cons_of_mem p inside,
          (others q (elsewhere q inside)).suspended.mpr suspended,
          (others q (elsewhere q inside)).timeout.trans same⟩

end Processes

namespace Kernel

variable {design : Design} {kernel kernel' : Kernel} {cells : List ProcId}

theorem suspend_timeout {p : ProcId} {suspension : Suspension} (positive : 0 ≤ kernel.now)
    (fits : ∀ time ∈ suspension.time, kernel.now + time ≤ StdTime.last)
    (result : kernel.suspend p suspension = .ok kernel') :
    (kernel'.processes.proc p).timeout = (kernel.processes.proc p).timeout ∨
      kernel'.processes.timeoutChain = some p := by
  cases suspension with
  | wait timeout sensitivity =>
    obtain ⟨waiting, processes, started, suspended, rfl⟩ := suspend_wait result
    unfold Processes.waitSuspend at suspended
    split at suspended
    · simp at suspended
    · rw [← Except.ok.inj suspended]
      cases timeout with
      | none =>
        obtain rfl := Except.ok.inj started
        refine .inl ?_
        simp [Processes.setState, Processes.modify_self]
      | some time =>
        simp only [Processes.startWait, Processes.waitSetTimeout] at started
        split at started
        · simp at started
        · rw [← Except.ok.inj started]
          exact .inr rfl
  | waitFor time =>
    obtain ⟨processes, suspended, result⟩ := bind_ok.mp result
    rw [← Except.ok.inj result]
    have fits : kernel.now + time ≤ StdTime.last := fits time rfl
    unfold Processes.waitTimeout at suspended
    split at suspended
    · simp at suspended
    · split at suspended
      · simp at suspended
      · next nonnegative =>
        rw [StdTime.sub_exact positive (by omega) (le_refl _)] at suspended
        dsimp only at suspended
        rw [if_pos (by omega)] at suspended
        rw [← Except.ok.inj suspended]
        exact .inr rfl
  | waitExit =>
    obtain ⟨processes, suspended, result⟩ := bind_ok.mp result
    rw [← Except.ok.inj result]
    unfold Processes.waitExit at suspended
    split at suspended
    · simp at suspended
    · rw [← Except.ok.inj suspended]
      refine .inl ?_
      simp [Processes.setState, Processes.modify_self]
  | delay del =>
    rw [← Except.ok.inj result]
    exact .inr rfl
  | finish =>
    rw [← Except.ok.inj result]
    exact .inl rfl

/-- What holds of the timeouts in every state of a run in which no time overflows. -/
structure TimesOut (kernel : Kernel) (cells : List ProcId) : Prop where
  /-- The processes that wait until a time are on the chain. -/
  timed : kernel.processes.Timed kernel.now cells
  /-- The time is not negative. -/
  positive : 0 ≤ kernel.now
  /-- The time is not after `Time'High`. -/
  fits : kernel.now ≤ StdTime.last
  /-- No process is postponed. -/
  nonpostponed : ∀ p, (kernel.processes.proc p).postponed = false
  /-- No timeout is before the next cycle. -/
  next : kernel.phase = .simulationCycle → kernel.nextTime ≤ kernel.processes.firstTimeout
  /-- After the scan, the resumed processes wait for later times. -/
  later : kernel.phase.runsNonpostponed = true → ∀ p ∈ cells,
    (kernel.processes.proc p).resumed = true → (kernel.processes.proc p).Suspended →
      kernel.now < (kernel.processes.proc p).timeout

section

variable (timesOut : kernel.TimesOut cells)
include timesOut

theorem TimesOut.stay (now : kernel'.now = kernel.now)
    (proc : kernel'.processes.proc = kernel.processes.proc)
    (first : kernel'.processes.firstTimeout = kernel.processes.firstTimeout)
    (phase : kernel'.phase = .simulationCycle → kernel'.nextTime ≤ kernel.processes.firstTimeout)
    (scanned : kernel'.phase.runsNonpostponed = true → kernel.phase.runsNonpostponed = true) :
    kernel'.TimesOut cells := by
  refine ⟨?_, now ▸ timesOut.positive, now ▸ timesOut.fits, fun p => ?_, fun starts => ?_, fun runs p inside => ?_⟩
  · rw [now]
    exact timesOut.timed.congr (fun q => by rw [proc]; exact ⟨rfl, rfl⟩) first
  · rw [proc]
    exact timesOut.nonpostponed p
  · rw [first]
    exact phase starts
  · rw [proc, now]
    exact timesOut.later (scanned runs) p inside

theorem TimesOut.ticks (clocked : kernel.Clocked)
    (nonnegative : kernel.Nonnegative) (ticks : Ticks design kernel kernel')
    (unscanned : kernel.phase ≠ .timeouts) : kernel'.TimesOut cells := by
  cases ticks with
  | cycle at' phase next =>
    have early := timesOut.next at'
    have starts : phase ≠ .simulationCycle ∧ phase.runsNonpostponed = false := by
      rcases next with ⟨left, rfl⟩ | rfl | rfl <;> exact ⟨by simp, rfl⟩
    refine ⟨timesOut.timed.advance early, nonnegative.nextTime,
      early.trans (timesOut.timed.bounds timesOut.fits).2, timesOut.nonpostponed,
      fun again => absurd again starts.1, fun runs => ?_⟩
    exact absurd (starts.2.symm.trans runs) Bool.false_ne_true
  | callback hook kept left at' =>
    obtain ⟨callbacks, kept', same⟩ := returnCallback_eq kernel hook kept left
    rw [same]
    refine timesOut.stay rfl rfl rfl (fun starts => by simp at starts) fun runs => ?_
    rw [at']
    cases hook <;> exact runs
  | nextTimeStep kept at' phase next =>
    refine timesOut.stay rfl rfl rfl (fun starts => ?_) fun runs => ?_
    · rcases next with rfl | rfl <;> simp at starts
    · rcases next with rfl | rfl <;> simp [Phase.runsNonpostponed] at runs
  | timeCallback at' =>
    unfold callTimeCallback
    split
    · exact timesOut.stay rfl rfl rfl (fun starts => by simp at starts) fun runs => by
        simp [Phase.runsNonpostponed] at runs
    · split <;> exact timesOut.stay rfl rfl rfl (fun starts => by simp at starts) fun runs => by
        simp [Phase.runsNonpostponed] at runs
  | timeReturn at' | signalsUpdated kept at' =>
    exact timesOut.stay rfl rfl rfl (fun starts => by simp at starts) fun runs => by
      simp [Phase.runsNonpostponed] at runs
  | firstPostponed at' | ran postponed at' =>
    exact timesOut.stay rfl rfl rfl (fun starts => by simp at starts) fun runs => by
      simp [Phase.runsNonpostponed] at runs
  | update at' signals updated =>
    obtain ⟨-, first, same⟩ := Processes.resumeProcesses_fields kernel.processes signals.resumed
    refine ⟨timesOut.timed.congr (fun q => ?_) first, timesOut.positive, timesOut.fits, fun q => ?_,
      fun starts => by simp [callCallbacks] at starts, fun runs => by
        simp [callCallbacks, Phase.runsNonpostponed] at runs⟩
    · rw [callCallbacks, resumeProcesses, same]
      exact ⟨rfl, rfl⟩
    · rw [callCallbacks, resumeProcesses, same]
      exact timesOut.nonpostponed q
  | awake at' => exact absurd at' unscanned
  | startOfProcesses kept at' ranProcesses =>
    exact timesOut.stay rfl rfl rfl (fun starts => by simp at starts) fun _ => by
      simp [at', Phase.runsNonpostponed]
  | ends start middle at' tn computed kernel' finish =>
    have same : middle = { kernel with signals := middle.signals } ∧ start.now = kernel.now ∧
        start.processes = kernel.processes := by
      obtain ⟨frame, -⟩ := computeNextTime_frame computed
      rcases at' with ⟨rfl, -⟩ | ⟨rfl, -⟩
      all_goals exact ⟨frame, rfl, rfl⟩
    have phase : kernel.phase ≠ .simulationCycle := by
      rcases at' with ⟨-, at' | at' | ⟨kept, at'⟩⟩ | ⟨-, kept, at'⟩ <;> simp [at']
    have first := (timesOut.timed.bounds timesOut.fits).1
    have early : tn ≤ kernel.processes.firstTimeout := by
      have found := computeNextTime_le computed
      rw [same.2.1, same.2.2] at found
      exact found.elim id fun now => now ▸ first
    rw [same.1] at finish
    cases finish with
    | lastKnownDelta | postponed | endOfTimeStep =>
      exact timesOut.stay rfl rfl rfl (fun starts => by simp [callCallbacks, runPostponed] at starts)
        fun runs => by simp [callCallbacks, runPostponed, Phase.runsNonpostponed] at runs
    | initialization | timeStep =>
      exact timesOut.stay rfl rfl rfl (fun _ => early) fun runs => by
        simp [endInitialization, endTimeStep, Phase.runsNonpostponed] at runs
    | delta running now =>
      unfold endDelta
      split
      · exact timesOut.stay rfl rfl rfl (fun starts => by simp at starts) fun runs => by
          simp [Phase.runsNonpostponed] at runs
      · refine timesOut.stay rfl rfl rfl (fun _ => ?_) fun runs => by
          simp [Phase.runsNonpostponed] at runs
        show kernel.nextTime ≤ _
        rw [clocked.current phase]
        exact first

section

variable (scheduled : kernel.Scheduled design cells)
include scheduled

theorem TimesOut.awake
    (at' : kernel.phase = .timeouts) {processes : Processes}
    (awaked : kernel.processes.awake kernel.now = .ok processes) :
    ∃ cells', ({ kernel with processes }.callCallbacks .startOfProcesses).Scheduled design cells' ∧
      ({ kernel with processes }.callCallbacks .startOfProcesses).TimesOut cells' ∧
      Processes.Awakes kernel.now kernel.processes processes cells cells' := by
  obtain ⟨cells', scheduled', awakes⟩ := scheduled.awake at' awaked
  obtain ⟨timed, later⟩ := timesOut.timed.awake scheduled.sound timesOut.positive timesOut.fits
    awaked awakes scheduled'.sound.chain
  refine ⟨cells', scheduled', ⟨timed, timesOut.positive, timesOut.fits, fun q => ?_,
    fun starts => by simp [callCallbacks] at starts, fun _ q inside _ => later q inside⟩, awakes⟩
  have relinked := awakes.relinks q
  show (processes.proc q).postponed = false
  rw [relinked.postponed, ← timesOut.nonpostponed q]
  split
  · unfold Process.awaken
    split <;> rfl
  · rfl

theorem TimesOut.runs
    (listed : kernel.Listed) {postponed : Bool} {p : ProcId} {table : List ProcId}
    (at' : kernel.phase = .runProcesses postponed (p :: table)) (resumed : (kernel.processes.proc p).resumed = true)
    (runs : RunsProcess kernel postponed p table kernel') :
    ∃ cells', kernel'.TimesOut cells' ∧ kernel'.Scheduled design cells' := by
  obtain ⟨cells', state, sensitivity, scheduled', ran, other, -⟩ := scheduled.runs at' resumed runs
  have nonpostponed : postponed = false := by
    unfold Listed at listed
    rw [at'] at listed
    exact (listed.kind p List.mem_cons_self).symm.trans (timesOut.nonpostponed p)
  have running : kernel.phase.runsNonpostponed = true := by
    rw [at', nonpostponed]
    rfl
  have flags : ∀ q, (kernel'.processes.proc q).postponed = false := by
    intro q
    by_cases same : q = p
    · rw [same, ran.postponed]
      exact timesOut.nonpostponed p
    · rw [(ran.others q same).postponed]
      exact timesOut.nonpostponed q
  have later : ∀ q ∈ cells', (kernel'.processes.proc q).resumed = true →
      (kernel'.processes.proc q).Suspended → kernel.now < (kernel'.processes.proc q).timeout := by
    intro q inside flag suspended
    have different : q ≠ p := by
      rintro rfl
      exact absurd (ran.idle.symm.trans flag) Bool.false_ne_true
    have relinked := ran.others q different
    rw [relinked.timeout]
    exact timesOut.later running q (ran.members q inside) (relinked.resumed ▸ flag) (relinked.suspended.mp suspended)
  refine ⟨cells', ?_, scheduled'⟩
  have unchanged : ∀ f : Process → Process,
      (∀ proc, (f proc).chainNext = proc.chainNext ∧ (f proc).chainPrev = proc.chainPrev) →
      (f (kernel.processes.proc p)).state = (kernel.processes.proc p).state →
      (f (kernel.processes.proc p)).timeout = (kernel.processes.proc p).timeout →
      kernel'.processes = kernel.processes.modify p f → kernel'.processes.Timed kernel.now cells' := by
    intro f links state timeout same
    have chain := scheduled'.sound.chain
    rw [same] at chain
    obtain rfl := chain.unique (scheduled.sound.chain.modify p links)
    refine timesOut.timed.congr (fun q => ?_) (same ▸ rfl)
    rw [same]
    by_cases here : q = p
    · rw [here, Processes.modify_self]
      exact ⟨state, timeout⟩
    · rw [Processes.modify_of_ne here]
      exact ⟨rfl, rfl⟩
  cases runs with
  | again waits =>
    exact ⟨unchanged (fun proc => { proc with resumed := false, state := .wait })
      (fun _ => ⟨rfl, rfl⟩) waits.symm rfl rfl, timesOut.positive, timesOut.fits,
      flags, fun starts => by simp at starts, fun _ => later⟩
  | close waits processes closed =>
    have chain : (kernel.processes.modify p fun proc =>
        { proc with resumed := false, sensitivity := [] }).Chain cells :=
      scheduled.sound.chain.modify p fun _ => ⟨rfl, rfl⟩
    have records : ∀ q, ((kernel.processes.modify p fun proc =>
        { proc with resumed := false, sensitivity := [] }).proc q).state = (kernel.processes.proc q).state ∧
        ((kernel.processes.modify p fun proc =>
        { proc with resumed := false, sensitivity := [] }).proc q).timeout = (kernel.processes.proc q).timeout := by
      intro q
      by_cases here : q = p
      · rw [here, Processes.modify_self]
        exact ⟨rfl, rfl⟩
      · rw [Processes.modify_of_ne here]
        exact ⟨rfl, rfl⟩
    have timed : processes.Timed kernel.now (cells.erase p) := by
      refine Processes.Timed.waitClose (timesOut.timed.congr records rfl) chain
        scheduled.sound.length_le timesOut.positive timesOut.fits (fun inside => ?_) closed
      rw [(records p).1, (records p).2]
      unfold Process.Suspended
      rw [(records p).1]
      rcases waits with waits | expired
      · exact .inl ⟨.inr waits, timesOut.later running p inside resumed (.inr waits)⟩
      · exact .inr expired
    have sound := scheduled.sound
    rw [at'] at sound
    obtain rfl := scheduled'.sound.chain.unique (Processes.Sound.close sound closed).1.chain
    exact ⟨timed, timesOut.positive, timesOut.fits, flags, fun starts => by simp at starts, fun _ => later⟩
  | ready notWaiting =>
    exact ⟨unchanged (fun proc => { proc with resumed := false })
      (fun _ => ⟨rfl, rfl⟩) rfl rfl rfl, timesOut.positive, timesOut.fits,
      flags, fun starts => by simp at starts, fun _ => later⟩

theorem TimesOut.suspends
    (listed : kernel.Listed) {postponed : Bool} {p : ProcId} {table : List ProcId}
    (at' : kernel.phase = .process p postponed table) {suspension : Suspension}
    (fits : kernel.FitsTimes design (.suspend suspension)) (may : kernel.maySuspend design p suspension = true)
    (result : kernel.suspend p suspension = .ok kernel') :
    ∃ cells', { kernel' with phase := .runProcesses postponed table }.TimesOut cells' ∧
      { kernel' with phase := .runProcesses postponed table }.Scheduled design cells' := by
  obtain ⟨cells', state, sensitivity, scheduled', suspends, other⟩ := scheduled.suspends at' may result
  have now : kernel'.now = kernel.now := by rw [suspend_frame result]
  have running := (scheduled.running p postponed table at').1
  have waits : p ∈ cells' → (kernel'.processes.proc p).Suspended := by
    intro inside
    rcases scheduled'.sound.suspended p inside with delayed | waits | expired
    · exact .inl delayed
    · exact .inr waits
    · exact absurd (suspends.state.symm.trans expired) other
  have stays : cells' = cells → (kernel'.processes.proc p).timeout = StdTime.bad := by
    intro same
    rcases suspend_timeout timesOut.positive fits result with timeout | head
    · exact timeout.trans (timesOut.timed.off p running.off)
    · exact absurd (same ▸ scheduled'.sound.chain.head_mem head) running.off
  have timed := timesOut.timed.suspends timesOut.positive suspends running.off other fits waits stays
  refine ⟨cells', ⟨?_, ?_, ?_, fun q => ?_, fun starts => by simp at starts,
    fun runs q inside resumed suspended => ?_⟩, scheduled'⟩
  · show kernel'.processes.Timed kernel'.now cells'
    exact now ▸ timed
  · exact now ▸ timesOut.positive
  · exact now ▸ timesOut.fits
  · by_cases same : q = p
    · exact same ▸ suspends.postponed.trans (timesOut.nonpostponed p)
    · exact (suspends.others q same).postponed.trans (timesOut.nonpostponed q)
  · show kernel'.now < (kernel'.processes.proc q).timeout
    have different : q ≠ p := by
      rintro rfl
      -- The process that suspends has not been resumed meanwhile.
      have tabled : q ∈ table ∨ q ∈ kernel'.processes.resumeTable := by
        have tabled := scheduled'.sound.tabled.resumed q resumed
        have kind : (kernel'.processes.proc q).postponed = false := suspends.postponed.trans (timesOut.nonpostponed q)
        rw [if_neg (by simp [kind])] at tabled
        exact tabled
      unfold Listed at listed
      rw [at'] at listed
      refine listed.not_mem running.idle ?_
      rw [suspends.resumeTable] at tabled
      rcases tabled with inside | inside <;> simp [Processes.toRun, Phase.table, inside]
    have relinked := suspends.others q different
    have before : q ∈ cells := by
      rcases suspends.chain with ⟨same, -⟩ | ⟨same, -⟩
      · exact same ▸ inside
      · exact (List.mem_cons.mp (same ▸ inside)).resolve_left different
    rw [now, relinked.timeout]
    refine timesOut.later ?_ q before (relinked.resumed ▸ resumed) (relinked.suspended.mp suspended)
    rw [at']
    exact runs

end

theorem TimesOut.keepsTimeouts (label : Label) : kernel.KeepsTimeouts label := by
  have none : kernel.processes.awaits = false := by
    simp [Processes.awaits, timesOut.nonpostponed]
  cases label with
  | suspend | tick => exact fun _ _ => by simp [none]
  | run | call | callback => exact trivial

end

theorem TimesOut.step {label : Label} (timesOut : kernel.TimesOut cells)
    (scheduled : kernel.Scheduled design cells) (listed : kernel.Listed) (clocked : kernel.Clocked)
    (nonnegative : kernel.Nonnegative) (fits : kernel.FitsTimes design label)
    (enabled : kernel.enabled design label = true) (result : kernel.step design label = .ok kernel') :
    ∃ cells', kernel'.TimesOut cells' ∧ kernel'.Scheduled design cells' := by
  cases label with
  | tick =>
    have ticks := tick_cases enabled result
    by_cases scans : kernel.phase = .timeouts
    · cases ticks with
      | awake at' processes awaked =>
        obtain ⟨cells', scheduled', timesOut', -⟩ := timesOut.awake scheduled at' awaked
        exact ⟨cells', timesOut', scheduled'⟩
      | _ => simp_all
    · exact ⟨cells, timesOut.ticks clocked nonnegative ticks scans, scheduled.ticks ticks scans⟩
  | run again =>
    obtain ⟨postponed, p, table, at', resumed, runs⟩ := runProcess_cases enabled result
    exact timesOut.runs scheduled listed at' resumed runs
  | call call =>
    simp only [Kernel.step] at result
    split at result
    · next p postponed table at' =>
      obtain ⟨signals, called, result⟩ := bind_ok.mp result
      have frame := processCall_frame called
      rw [← Except.ok.inj result]
      exact ⟨cells, timesOut.stay rfl rfl rfl (fun starts => by simp [at'] at starts) id,
        scheduled.frame rfl rfl frame.eventList frame.resumed⟩
    · exact Except.ok.inj result ▸ ⟨cells, timesOut, scheduled⟩
  | suspend suspension =>
    simp only [Kernel.step] at result
    split at result
    · next p postponed table at' =>
      obtain ⟨middle, suspended, result⟩ := bind_ok.mp result
      have may : kernel.maySuspend design p suspension = true := by
        simpa [Kernel.enabled, at'] using enabled
      rw [← Except.ok.inj result]
      exact timesOut.suspends scheduled listed at' fits may suspended
    · exact Except.ok.inj result ▸ ⟨cells, timesOut, scheduled⟩
  | callback call =>
    rw [← Except.ok.inj result, callbackCall_frame]
    exact ⟨cells, timesOut.stay rfl rfl rfl timesOut.next id, scheduled.frame rfl rfl rfl rfl⟩

end Kernel

/-- A process waits until this time. -/
def Processes.WaitsUntil (procs : Processes) (time : Int) : Prop :=
  time ≠ StdTime.bad ∧ ∃ p, (procs.proc p).Suspended ∧ (procs.proc p).timeout = time

theorem DriverDecl.create_nonnegative (decl : DriverDecl) (proc : ProcId) : (decl.create proc).Nonnegative := by
  have empty : TransHeap.empty.Nonnegative := fun p cell held => by simp [TransHeap.empty] at held
  have first : (TransHeap.empty.new ⟨.value decl.val, 0⟩).Nonnegative := empty.new (le_refl 0)
  unfold create
  split
  · exact (first.write 0 (le_refl 0)).new (le_refl 0)
  · exact first

namespace Setup

variable {design : Design} {setup : Setup}

theorem register_records {holds : Process → Prop} (unregistered : ∀ p, holds (noProcesses.proc p))
    (registered : ∀ decl ∈ setup.processes, holds ⟨false, decl.postponed,
      if decl.sensitivity.isSome then .sensitized else .ready, StdTime.bad, none, none, []⟩)
    (p : ProcId) : holds ((setup.register design).1.proc p) := by
  unfold register
  generalize setup.processes = decls at registered
  generalize noProcesses = procs at unregistered
  generalize createSignals design setup = signals
  induction decls generalizing procs signals with
  | nil => exact unregistered p
  | cons decl decls ih =>
    rw [List.foldl_cons]
    refine ih (fun decl member => registered decl (List.mem_cons_of_mem _ member)) _ (fun q => ?_) _
    show holds (update procs.proc procs.count _ q)
    by_cases same : q = procs.count
    · rw [same, update_self]
      exact registered decl List.mem_cons_self
    · rw [update_of_ne same]
      exact unregistered q

/-- When the simulation starts, no time is negative, unless a callback is registered for one. -/
theorem kernel_nonnegative (registered : ∀ time ∈ setup.afterDelay, 0 ≤ time) : (setup.kernel design).Nonnegative := by
  refine ⟨le_refl 0, le_refl 0, ?_, ?_⟩
  · show (setup.register design).2.Nonnegative
    have base : (createSignals design setup).Nonnegative := by
      unfold createSignals
      generalize (List.range design.count).filter _ = signs
      have start : { values := setup.values
                     link := fun _ => none
                     flink := fun _ => none
                     directActive := fun _ => false
                     drivers := fun _ => []
                     attrTrans := fun sig => ⟨setup.attrTrans sig, []⟩
                     eventList := fun _ => []
                     forceValues := setup.forceValues
                     updated := fun _ => false : SignalState }.Nonnegative :=
        ⟨by simp, by simp⟩
      generalize SignalState.mk _ _ _ _ _ _ _ _ _ _ _ _ _ _ _ = state at start ⊢
      induction signs generalizing state with
      | nil => exact start
      | cons sign signs ih => exact ih _ (start.insertFuture sign)
    unfold register
    generalize noProcesses = procs
    generalize createSignals design setup = signals at base
    induction setup.processes generalizing procs signals with
    | nil => exact base
    | cons decl decls ih =>
      rw [List.foldl_cons]
      refine ih _ _ ⟨?_, base.attrs⟩
      show ∀ sig, ∀ driver ∈ decl.drivers.foldl _ signals.drivers sig, driver.Nonnegative
      have before := base.drivers
      generalize signals.drivers = drivers at before ⊢
      generalize decl.drivers = decls
      induction decls generalizing drivers with
      | nil => exact before
      | cons first decls ih =>
        refine ih _ fun sig driver inside => ?_
        dsimp only at inside
        by_cases same : sig = first.sign
        · rw [same, update_self, addDriver] at inside
          split at inside
          · exact before first.sign driver inside
          · rcases List.mem_append.mp inside with old | new
            · exact before first.sign driver old
            · exact List.mem_singleton.mp new ▸ first.create_nonnegative _
        · rw [update_of_ne same] at inside
          exact before sig driver inside
  · have start : (⟨setup.hooks, [], StdTime.last⟩ : Callbacks).Nonnegative :=
      ⟨by simp, (by decide : 0 ≤ StdTime.last)⟩
    show (setup.afterDelay.foldl Callbacks.registerCallbackAt ⟨setup.hooks, [], StdTime.last⟩).Nonnegative
    generalize (⟨setup.hooks, [], StdTime.last⟩ : Callbacks) = callbacks at start
    generalize setup.afterDelay = times at registered
    induction times generalizing callbacks with
    | nil => exact start
    | cons t times ih =>
      exact ih _ (start.registerCallbackAt (registered t List.mem_cons_self))
        fun time inside => registered time (List.mem_cons_of_mem t inside)

theorem Reaches.timesOut (wellFormed : setup.WellFormed design)
    (nonpostponed : ∀ decl ∈ setup.processes, decl.postponed = false)
    (registered : ∀ time ∈ setup.afterDelay, 0 ≤ time) {kernel : Kernel}
    (reaches : setup.Reaches design (Kernel.FitsTimes design) kernel) :
    ∃ cells, kernel.TimesOut cells ∧ kernel.Scheduled design cells ∧ kernel.Expires cells ∧
      kernel.Listed ∧ kernel.Clocked ∧ kernel.Nonnegative := by
  refine @System.Run.invariant _ _ _ (Kernel.system design) (Kernel.FitsTimes design)
    (setup.kernel design) kernel (fun kernel => ∃ cells, kernel.TimesOut cells ∧
      kernel.Scheduled design cells ∧ kernel.Expires cells ∧ kernel.Listed ∧ kernel.Clocked ∧
      kernel.Nonnegative) reaches ⟨[], ?_⟩ ?_
  · have initial : (setup.kernel design).Nonnegative := kernel_nonnegative registered
    have registered := register_registered wellFormed
    obtain ⟨-, first, same⟩ := Processes.resumeProcesses_fields (setup.register design).1
      (List.range (setup.register design).1.count)
    have kernelProc : ∀ p, (setup.kernel design).processes.proc p = _ := same
    have kernelFirst : (setup.kernel design).processes.firstTimeout = StdTime.last := first.trans registered.chain.2
    have timeouts : ∀ p, ((setup.register design).1.proc p).timeout = StdTime.bad :=
      @register_records design setup (fun proc => proc.timeout = StdTime.bad) (fun _ => rfl) fun _ _ => rfl
    refine ⟨⟨⟨fun p _ => ?_, fun p _ => ?_, by simp, by simp, .inl kernelFirst⟩, le_refl 0,
      (by decide : (0 : Int) ≤ StdTime.last), fun p => ?_, fun starts => ?_, by simp⟩,
      kernel_scheduled wellFormed, .of_none fun p => ?_, kernel_listed wellFormed,
      ⟨fun _ => rfl, fun _ => ⟨rfl, rfl⟩⟩, initial⟩
    · rw [kernelProc]
      exact timeouts p
    · rw [kernelProc]
      exact timeouts p
    · rw [kernelProc]
      exact @register_records design setup (fun proc => proc.postponed = false) (fun _ => rfl) nonpostponed p
    · simp [Setup.kernel] at starts
    · rw [kernelProc]
      exact (registered.states p).1
  · rintro state label next ⟨cells, timesOut, scheduled, expires, listed, clocked, nonnegative⟩ enabled fits result
    obtain ⟨cells', timesOut', scheduled'⟩ := timesOut.step scheduled listed clocked nonnegative fits enabled result
    have first := timesOut.positive.trans (timesOut.timed.bounds timesOut.fits).1
    obtain ⟨cells'', expires', scheduled''⟩ :=
      expires.step scheduled clocked (timesOut.keepsTimeouts label) enabled result
    obtain rfl := scheduled''.sound.chain.unique scheduled'.sound.chain
    exact ⟨cells'', timesOut', scheduled', expires', listed.step scheduled enabled result,
      clocked.step enabled result, nonnegative.step first fits enabled result⟩

/-- In every state of a run without postponed processes in which no time overflows, the timeout chain is a
doubly linked list of the processes that wait until a time, each of them once, and of processes that their
timeouts have awaked; the first timeout is the earliest of the times for which processes wait, and the next
cycle is not after it; and the scan of the chain returns and puts each process that waits until the current
time in the table of resumed processes, once, and leaves the others as they are. -/
theorem timeouts_kept (wellFormed : setup.WellFormed design)
    (nonpostponed : ∀ decl ∈ setup.processes, decl.postponed = false)
    (registered : ∀ time ∈ setup.afterDelay, 0 ≤ time) {kernel : Kernel}
    (reaches : setup.Reaches design (Kernel.FitsTimes design) kernel) :
    (∃ cells, kernel.processes.Chain cells ∧ cells.Nodup ∧ (∀ p, (kernel.processes.proc p).Suspended →
        (p ∈ cells ↔ (kernel.processes.proc p).timeout ≠ StdTime.bad)) ∧
      ∀ p ∈ cells, (kernel.processes.proc p).Suspended ∨
        (kernel.processes.proc p).state = .timeout ∧ (kernel.processes.proc p).resumed = true) ∧
    ((∀ time, ¬kernel.processes.WaitsUntil time) ∧ kernel.processes.firstTimeout = StdTime.last ∨
      kernel.processes.WaitsUntil kernel.processes.firstTimeout) ∧
    (∀ time, kernel.processes.WaitsUntil time → kernel.now ≤ time ∧ kernel.processes.firstTimeout ≤ time ∧
      (kernel.phase = .simulationCycle → kernel.nextTime ≤ time)) ∧
    (kernel.phase = .timeouts → ∃ kernel', kernel.step design .tick = .ok kernel' ∧
      ∀ p, (kernel.processes.proc p).Suspended → if (kernel.processes.proc p).timeout = kernel.now then
          kernel'.processes.resumeTable.count p = 1 ∧ ¬(kernel'.processes.proc p).Suspended ∧
            (kernel'.processes.proc p).timeout = StdTime.bad
        else (kernel.processes.proc p).Relinked (kernel'.processes.proc p)) := by
  obtain ⟨cells, timesOut, scheduled, expires, listed, -⟩ := reaches.timesOut wellFormed nonpostponed registered
  have timed := timesOut.timed
  have waiting : ∀ p ∈ cells, (kernel.processes.proc p).Suspended →
      kernel.processes.WaitsUntil (kernel.processes.proc p).timeout := by
    intro p inside suspended
    refine ⟨fun none => ?_, p, suspended, rfl⟩
    have pending := timesOut.positive.trans (timed.pending p inside suspended).1
    rw [none] at pending
    exact absurd pending (by decide)
  have onChain : ∀ time, kernel.processes.WaitsUntil time → ∃ p ∈ cells,
      (kernel.processes.proc p).Suspended ∧ (kernel.processes.proc p).timeout = time := by
    rintro time ⟨some, p, suspended, timeout⟩
    refine ⟨p, ?_, suspended, timeout⟩
    by_contra outside
    exact some (timeout.symm.trans (timed.off p outside))
  refine ⟨⟨cells, scheduled.sound.chain, scheduled.sound.chain.nodup, fun p suspended => ⟨?_, ?_⟩,
    fun p inside => ?_⟩, ?_, fun time waits => ?_, fun at' => ?_⟩
  · exact fun inside => (waiting p inside suspended).1
  · intro some
    by_contra outside
    exact some (timed.off p outside)
  · rcases scheduled.sound.suspended p inside with state | state | state
    · exact .inl (.inl state)
    · exact .inl (.inr state)
    · exact .inr ⟨state, scheduled.sound.expired p state⟩
  · rcases timed.attained with last | ⟨p, inside, suspended, timeout⟩
    · by_cases none : ∀ time, ¬kernel.processes.WaitsUntil time
      · exact .inl ⟨none, last⟩
      obtain ⟨time, waits⟩ := not_forall_not.mp none
      obtain ⟨p, inside, suspended, rfl⟩ := onChain time waits
      have least := timed.least p inside suspended
      have fits := (timed.pending p inside suspended).2
      rw [last] at least ⊢
      exact .inr (le_antisymm fits least ▸ waits)
    · exact .inr (timeout ▸ waiting p inside suspended)
  · obtain ⟨p, inside, suspended, rfl⟩ := onChain time waits
    have least := timed.least p inside suspended
    exact ⟨(timed.pending p inside suspended).1, least, fun starts => (timesOut.next starts).trans least⟩
  · have awaked : ∀ p ∈ cells, (kernel.processes.proc p).state ≠ .timeout := by
      intro p _ expired
      have postponed := expires.nonpostponed (by simp [at', Phase.runsNonpostponed]) p expired
      rw [timesOut.nonpostponed] at postponed
      exact absurd postponed Bool.false_ne_true
    obtain ⟨processes, cells', result, -, awakes⟩ := scheduled.sound.awake_returns kernel.now fun _ => awaked
    have step : kernel.step design .tick =
        .ok ({ kernel with processes }.callCallbacks .startOfProcesses) := by
      simp only [Kernel.step, Kernel.tick, at', result]
      rfl
    have enabled : kernel.enabled design .tick = true := by simp [Kernel.enabled, at']
    refine ⟨_, step, fun p suspended => ?_⟩
    split
    · next now =>
      have inside : p ∈ cells := by
        by_contra outside
        have none := timed.off p outside
        rw [now] at none
        exact absurd (none ▸ timesOut.positive) (by decide)
      have first : kernel.now = kernel.processes.firstTimeout :=
        le_antisymm (timed.bounds timesOut.fits).1 (now ▸ timed.least p inside suspended)
      have relinked := awakes.relinks p
      rw [if_pos ⟨first, inside⟩, Process.awaken, if_pos ⟨suspended, now⟩] at relinked
      have tables : (processes.toRun []).Nodup := (listed.step scheduled enabled step).nodup
      obtain ⟨cells'', scheduled'⟩ := scheduled.step enabled step
      have resumed : p ∈ processes.resumeTable := by
        have tabled := scheduled'.sound.tabled.resumed p relinked.resumed
        have kind : (processes.proc p).postponed = false := relinked.postponed.trans (timesOut.nonpostponed p)
        rw [if_neg (by simp [Kernel.callCallbacks, kind])] at tabled
        exact tabled.resolve_left (by simp [Kernel.callCallbacks, Phase.table])
      refine ⟨List.count_eq_one_of_mem ?_ resumed, fun again => ?_, relinked.timeout⟩
      · exact (List.nodup_append.mp (List.nodup_append.mp tables).1).2.1
      · have again : (processes.proc p).Suspended := again
        have again := relinked.suspended.mp again
        rcases suspended with state | state <;> simp [Process.Suspended, state] at again
    · next later =>
      have relinked := awakes.relinks p
      split at relinked
      · rwa [Process.awaken, if_neg fun due => later due.2] at relinked
      · exact relinked

/-- A process that waits until the time 1 or an event, and one that waits until the time 2. -/
def timeoutSetup : Setup :=
  { postponedSetup with processes := [⟨false, none, []⟩, ⟨false, none, []⟩] }

/-- The times of a run are small. -/
def SmallTimes (kernel : Kernel) : Label → Prop
  | .suspend suspension => ∀ time ∈ suspension.time, kernel.now + time ≤ 1000
  | .callback (.registerAt _) => False
  | _ => kernel.now ≤ 1000

instance (kernel : Kernel) : (label : Label) → Decidable (SmallTimes kernel label)
  | .suspend suspension => inferInstanceAs (Decidable (∀ time ∈ suspension.time, kernel.now + time ≤ 1000))
  | .callback (.registerAt _) => inferInstanceAs (Decidable False)
  | .tick | .run _ | .call _ | .callback (.force _) | .callback (.register ..) | .callback (.delete ..) =>
    inferInstanceAs (Decidable (kernel.now ≤ 1000))

theorem SmallTimes.fits {kernel : Kernel} {label : Label} (small : SmallTimes kernel label) :
    kernel.FitsTimes idleDesign label := by
  have last : (1000 : Int) ≤ StdTime.last := by decide
  cases label with
  | suspend suspension => exact fun time delay => (small time delay).trans last
  | tick =>
    intro _ sig
    have small : kernel.now ≤ 1000 := small
    exact ⟨le_refl 0, by simpa [idleDesign] using small.trans last⟩
  | callback call =>
    cases call with
    | registerAt delay => exact absurd small id
    | force | register | delete => exact trivial
  | run | call => exact trivial

/-- The first process suspends until the time 1 and the second one until the time 2, and the cycle of the
time 1 comes to its scan. -/
def waitsForOne : List Label :=
  [.tick, .run false, .suspend (.wait (some 1) [0]), .run false, .suspend (.waitFor 2), .tick, .tick,
    .tick, .tick, .tick, .tick, .tick]

/-- The first process waits until the current time, and the second one until a later one. -/
theorem timeouts_kept_until_one : ∃ kernel : Kernel, kernel.phase = .timeouts ∧
    (kernel.processes.proc 0).timeout = kernel.now ∧ (kernel.processes.proc 1).timeout = 2 ∧
    (∃ cells, kernel.processes.Chain cells ∧ cells.Nodup ∧ (∀ p, (kernel.processes.proc p).Suspended →
        (p ∈ cells ↔ (kernel.processes.proc p).timeout ≠ StdTime.bad)) ∧
      ∀ p ∈ cells, (kernel.processes.proc p).Suspended ∨
        (kernel.processes.proc p).state = .timeout ∧ (kernel.processes.proc p).resumed = true) ∧
    ((∀ time, ¬kernel.processes.WaitsUntil time) ∧ kernel.processes.firstTimeout = StdTime.last ∨
      kernel.processes.WaitsUntil kernel.processes.firstTimeout) ∧
    (∀ time, kernel.processes.WaitsUntil time → kernel.now ≤ time ∧ kernel.processes.firstTimeout ≤ time ∧
      (kernel.phase = .simulationCycle → kernel.nextTime ≤ time)) ∧
    (kernel.phase = .timeouts → ∃ kernel', kernel.step idleDesign .tick = .ok kernel' ∧
      ∀ p, (kernel.processes.proc p).Suspended → if (kernel.processes.proc p).timeout = kernel.now then
          kernel'.processes.resumeTable.count p = 1 ∧ ¬(kernel'.processes.proc p).Suspended ∧
            (kernel'.processes.proc p).timeout = StdTime.bad
        else (kernel.processes.proc p).Relinked (kernel'.processes.proc p)) := by
  refine ⟨((Kernel.system idleDesign).execute SmallTimes
    (timeoutSetup.kernel idleDesign) waitsForOne).get (by decide +kernel), by rfl, by rfl, by rfl, ?_⟩
  exact timeouts_kept ⟨by decide⟩ (by decide) (by decide)
    (System.Run.mono (System.run_of_execute .refl (Option.some_get _).symm) fun _ _ small => SmallTimes.fits small)

end Setup

end Ghdl.Grt
