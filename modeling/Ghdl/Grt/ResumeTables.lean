import Ghdl.Grt.ProcessRuns

/-!
# The tables of resumed processes

`Resume_Process` puts a process in the table of its kind unless its flag says that it is in there already, and
`Run_Processes` clears the flag of each process of the table. So the table that is being run and the two tables
together hold every resumed process once, and no other process.
-/

namespace Ghdl.Grt

open Fallible Transition

namespace Processes

/-- The processes that are to be run: those of the table that is being run, then those of the two tables. -/
def toRun (procs : Processes) (table : List ProcId) : List ProcId :=
  table ++ procs.resumeTable ++ procs.postponedTable

/-- Each process that is to be run is resumed, and in one table only: the table of its kind. -/
structure Listed (procs : Processes) (table : List ProcId) (postponed : Bool) : Prop where
  /-- No process is in the tables twice. -/
  nodup : (procs.toRun table).Nodup
  /-- The processes of the tables are resumed. -/
  resumed : ∀ p ∈ procs.toRun table, (procs.proc p).resumed = true
  /-- The processes of the table that is being run are of one kind. -/
  kind : ∀ p ∈ table, (procs.proc p).postponed = postponed
  /-- `Resume_Process_Table` holds nonpostponed processes. -/
  resume : ∀ p ∈ procs.resumeTable, (procs.proc p).postponed = false
  /-- `Postponed_Resume_Process_Table` holds postponed processes. -/
  postpone : ∀ p ∈ procs.postponedTable, (procs.proc p).postponed = true

/-- The tables and the flags are the same. -/
structure SameTables (procs procs' : Processes) : Prop where
  resumed : ∀ p, (procs'.proc p).resumed = (procs.proc p).resumed
  postponed : ∀ p, (procs'.proc p).postponed = (procs.proc p).postponed
  resumeTable : procs'.resumeTable = procs.resumeTable
  postponedTable : procs'.postponedTable = procs.postponedTable

variable {procs procs' procs'' : Processes} {table : List ProcId} {postponed : Bool} {p : ProcId}

namespace SameTables

/-- Nothing is changed. -/
theorem refl (procs : Processes) : SameTables procs procs :=
  ⟨fun _ => rfl, fun _ => rfl, rfl, rfl⟩

/-- What two changes leave. -/
theorem trans (same : SameTables procs procs') (same' : SameTables procs' procs'') : SameTables procs procs'' where
  resumed p := (same'.resumed p).trans (same.resumed p)
  postponed p := (same'.postponed p).trans (same.postponed p)
  resumeTable := same'.resumeTable.trans same.resumeTable
  postponedTable := same'.postponedTable.trans same.postponedTable

/-- A change of a record that leaves the flags. -/
theorem modify (procs : Processes) (p : ProcId) {f : Process → Process}
    (keeps : ∀ proc, (f proc).resumed = proc.resumed ∧ (f proc).postponed = proc.postponed) :
    SameTables procs (procs.modify p f) := by
  have flags : ∀ q, ((procs.modify p f).proc q).resumed = (procs.proc q).resumed ∧
      ((procs.modify p f).proc q).postponed = (procs.proc q).postponed := by
    intro q
    by_cases same : q = p
    · rw [same, modify_self]
      exact keeps _
    · rw [modify_of_ne same]
      exact ⟨rfl, rfl⟩
  exact ⟨fun q => (flags q).1, fun q => (flags q).2, rfl, rfl⟩

/-- Taking a process off the timeout chain. -/
theorem remove (procs : Processes) (p : ProcId) : SameTables procs (procs.removeProcessFromTimeoutChain p) := by
  unfold removeProcessFromTimeoutChain
  extract_lets first second
  have before : SameTables procs first := by
    unfold first
    split
    · exact modify procs _ fun _ => ⟨rfl, rfl⟩
    · split
      · exact ⟨fun _ => rfl, fun _ => rfl, rfl, rfl⟩
      · exact refl procs
  have after : SameTables first second := by
    unfold second
    split
    · exact (modify first _ (by exact fun _ => ⟨rfl, rfl⟩)).trans (modify _ p (by exact fun _ => ⟨rfl, rfl⟩))
    · exact refl first
  exact (before.trans after).trans (modify second p fun _ => ⟨rfl, rfl⟩)

end SameTables

namespace Listed

section

variable (listed : procs.Listed table postponed)
include listed

/-- Whether the tables list the resumed processes depends on the tables and the flags only. -/
theorem congr (same : SameTables procs procs') :
    procs'.Listed table postponed where
  nodup := by
    rw [toRun, same.resumeTable, same.postponedTable]
    exact listed.nodup
  resumed q inside := by
    rw [toRun, same.resumeTable, same.postponedTable] at inside
    rw [same.resumed]
    exact listed.resumed q inside
  kind q inside := (same.postponed q).trans (listed.kind q inside)
  resume q inside := by
    rw [same.resumeTable] at inside
    exact (same.postponed q).trans (listed.resume q inside)
  postpone q inside := by
    rw [same.postponedTable] at inside
    exact (same.postponed q).trans (listed.postpone q inside)

theorem not_mem (idle : (procs.proc p).resumed = false) :
    p ∉ procs.toRun table := by
  intro inside
  have resumed := listed.resumed p inside
  rw [idle] at resumed
  exact absurd resumed Bool.false_ne_true

/-- `Resume_Process`. -/
theorem resumeProcess (p : ProcId) :
    (procs.resumeProcess p).Listed table postponed := by
  unfold Processes.resumeProcess
  split
  · exact listed
  · next idle =>
    have fresh := listed.not_mem (by simpa using idle)
    have added : (procs.toRun table ++ [p]).Nodup :=
      listed.nodup.append (List.nodup_singleton p) (List.disjoint_singleton.mpr fresh)
    have flags : ∀ q, ((procs.modify p fun proc => { proc with resumed := true }).proc q).postponed =
        (procs.proc q).postponed := by
      intro q
      by_cases same : q = p
      · rw [same, modify_self]
      · rw [modify_of_ne same]
    have raised : ∀ q ∈ procs.toRun table ++ [p],
        ((procs.modify p fun proc => { proc with resumed := true }).proc q).resumed = true := by
      intro q inside
      by_cases same : q = p
      · rw [same, modify_self]
      · rw [modify_of_ne same]
        exact listed.resumed q ((List.mem_append.mp inside).resolve_right (by simpa using same))
    dsimp only
    split
    · next kind =>
      have moved : table ++ procs.resumeTable ++ (procs.postponedTable ++ [p]) =
          procs.toRun table ++ [p] := (List.append_assoc _ _ _).symm
      constructor
      · show (table ++ procs.resumeTable ++ (procs.postponedTable ++ [p])).Nodup
        rw [moved]
        exact added
      · intro q inside
        exact raised q (moved ▸ inside)
      · exact fun q inside => (flags q).trans (listed.kind q inside)
      · exact fun q inside => (flags q).trans (listed.resume q inside)
      · intro q inside
        refine (flags q).trans ?_
        rcases List.mem_append.mp inside with old | new
        · exact listed.postpone q old
        · exact List.mem_singleton.mp new ▸ kind
    · next kind =>
      have moved : (table ++ (procs.resumeTable ++ [p]) ++ procs.postponedTable).Perm
          (procs.toRun table ++ [p]) := by
        simp only [toRun, List.append_assoc]
        exact (List.perm_append_comm.append_left _).append_left _
      constructor
      · exact moved.nodup_iff.mpr added
      · exact fun q inside => raised q (moved.mem_iff.mp inside)
      · exact fun q inside => (flags q).trans (listed.kind q inside)
      · intro q inside
        refine (flags q).trans ?_
        rcases List.mem_append.mp inside with old | new
        · exact listed.resume q old
        · exact List.mem_singleton.mp new ▸ (by simpa using kind)
      · exact fun q inside => (flags q).trans (listed.postpone q inside)

theorem resumeProcesses (resumed : List ProcId) :
    (resumed.foldl Processes.resumeProcess procs).Listed table postponed := by
  induction resumed generalizing procs with
  | nil => exact listed
  | cons p resumed ih => exact ih (listed.resumeProcess p)

end

theorem awakeFrom {now tn tn' : Int} {fuel : Nat} {start : Option ProcId} (listed : procs.Listed table postponed)
    (result : awakeFrom now fuel procs tn start = .ok (procs', tn')) : procs'.Listed table postponed := by
  induction fuel generalizing procs tn start with
  | zero =>
    cases start with
    | none =>
      simp only [Processes.awakeFrom, Except.ok.injEq, Prod.mk.injEq] at result
      exact result.1 ▸ listed
    | some p => simp [Processes.awakeFrom] at result
  | succ fuel ih =>
    cases start with
    | none =>
      simp only [Processes.awakeFrom, Except.ok.injEq, Prod.mk.injEq] at result
      exact result.1 ▸ listed
    | some p =>
      have stopped : (procs.setTimeout p StdTime.bad).Listed table postponed :=
        listed.congr (.modify procs p fun _ => ⟨rfl, rfl⟩)
      simp only [Processes.awakeFrom] at result
      split at result
      · exact ih listed result
      · exact ih listed result
      · split at result
        · refine ih ?_ result
          exact ((stopped.congr (.remove _ p)).resumeProcess p).congr (.modify _ p fun _ => ⟨rfl, rfl⟩)
        · exact ih listed result
      · split at result
        · refine ih ?_ result
          exact (stopped.resumeProcess p).congr (.modify _ p fun _ => ⟨rfl, rfl⟩)
        · exact ih listed result
      · simp at result
      · simp at result

/-- The processes in timeout are awaked. -/
theorem awake {now : Int} (listed : procs.Listed table postponed)
    (result : procs.awake now = .ok procs') : procs'.Listed table postponed := by
  unfold Processes.awake at result
  split at result
  · obtain ⟨⟨scanned, tn⟩, scan, result⟩ := bind_ok.mp result
    rw [← Except.ok.inj result]
    exact (listed.awakeFrom scan).congr ⟨fun _ => rfl, fun _ => rfl, rfl, rfl⟩
  · exact Except.ok.inj result ▸ listed

end Listed

namespace Listed

theorem of_nil {postponed' : Bool} (listed : procs.Listed [] postponed) : procs.Listed [] postponed' :=
  { listed with kind := fun _ inside => absurd inside (by simp) }

/-- The nonpostponed processes are run. -/
theorem start (listed : procs.Listed [] postponed) :
    { procs with resumeTable := [] }.Listed procs.resumeTable false := by
  constructor
  · simpa [toRun] using listed.nodup
  · simpa [toRun] using listed.resumed
  · exact listed.resume
  · exact fun _ inside => absurd inside (by simp)
  · exact listed.postpone

theorem startPostponed (listed : procs.Listed [] postponed) :
    { procs with postponedTable := [] }.Listed procs.postponedTable true := by
  have moved : (procs.postponedTable ++ procs.resumeTable ++ []).Perm (procs.toRun []) := by
    simpa [toRun] using List.perm_append_comm
  constructor
  · exact moved.nodup_iff.mpr listed.nodup
  · exact fun q inside => listed.resumed q (moved.mem_iff.mp inside)
  · exact listed.postpone
  · exact listed.resume
  · exact fun _ inside => absurd inside (by simp)

/-- A process that is not to be run changes, and the other ones keep their flags. -/
theorem update (listed : procs.Listed table postponed) (fresh : p ∉ procs.toRun table)
    (others : ∀ q, q ≠ p → (procs.proc q).Relinked (procs'.proc q)) (resume : procs'.resumeTable = procs.resumeTable)
    (postpone : procs'.postponedTable = procs.postponedTable) : procs'.Listed table postponed := by
  have tables : procs'.toRun table = procs.toRun table := by rw [toRun, toRun, resume, postpone]
  have kept : ∀ q ∈ procs.toRun table, (procs.proc q).Relinked (procs'.proc q) := fun q inside =>
    others q (ne_of_mem_of_not_mem inside fresh)
  constructor
  · exact tables ▸ listed.nodup
  · intro q inside
    rw [tables] at inside
    exact (kept q inside).resumed.trans (listed.resumed q inside)
  · intro q inside
    exact (kept q (by simp [toRun, inside])).postponed.trans (listed.kind q inside)
  · intro q inside
    rw [resume] at inside
    exact (kept q (by simp [toRun, inside])).postponed.trans (listed.resume q inside)
  · intro q inside
    rw [postpone] at inside
    exact (kept q (by simp [toRun, inside])).postponed.trans (listed.postpone q inside)

/-- The first process of the table leaves it. -/
theorem tail (listed : procs.Listed (p :: table) postponed) : procs.Listed table postponed ∧ p ∉ procs.toRun table := by
  have nodup := listed.nodup
  simp only [toRun, List.cons_append, List.nodup_cons] at nodup
  exact ⟨{ listed with
    nodup := nodup.2
    resumed := fun q inside => listed.resumed q (List.mem_cons_of_mem p inside)
    kind := fun q inside => listed.kind q (List.mem_cons_of_mem p inside) }, nodup.1⟩

end Listed

end Processes

namespace Kernel

/-- Each resumed process is in the table of its kind, or in the table that is being run. -/
def Listed (kernel : Kernel) : Prop :=
  kernel.processes.Listed kernel.phase.table kernel.phase.runsPostponed

variable {design : Design} {kernel kernel' : Kernel} {cells : List ProcId}

theorem Listed.rest (listed : kernel.Listed) (rests : kernel.phase.table = []) (rests' : kernel'.phase.table = [])
    (same : kernel.processes.SameTables kernel'.processes) : kernel'.Listed := by
  unfold Listed at listed ⊢
  rw [rests] at listed
  rw [rests']
  exact listed.of_nil.congr same

theorem Listed.ticks (listed : kernel.Listed) (ticks : Ticks design kernel kernel') : kernel'.Listed := by
  have tables : kernel.phase.table = [] → ∀ postponed, kernel.processes.Listed [] postponed := by
    intro rests postponed
    unfold Listed at listed
    rw [rests] at listed
    exact listed.of_nil
  cases ticks with
  | cycle at' phase next =>
    refine listed.rest (by simp [at', Phase.table]) ?_ (.refl _)
    rcases next with ⟨left, rfl⟩ | rfl | rfl <;> rfl
  | callback hook kept left at' =>
    unfold returnCallback
    split <;> exact listed.rest (by simp [at', Phase.table]) rfl (.refl _)
  | nextTimeStep kept at' phase next =>
    refine listed.rest (by simp [at', Phase.table]) ?_ (.refl _)
    rcases next with rfl | rfl <;> rfl
  | timeCallback at' =>
    unfold callTimeCallback
    split
    · exact listed.rest (by simp [at', Phase.table]) rfl (.refl _)
    · split <;> exact listed.rest (by simp [at', Phase.table]) rfl (.refl _)
  | timeReturn at' | signalsUpdated kept at' | ran postponed at' =>
    exact listed.rest (by simp [at', Phase.table]) rfl (.refl _)
  | update at' signals updated =>
    exact (tables (by simp [at', Phase.table]) false).resumeProcesses signals.resumed
  | awake at' processes awaked =>
    exact (tables (by simp [at', Phase.table]) false).awake awaked
  | startOfProcesses kept at' ranProcesses =>
    exact (tables (by simp [at', Phase.table]) false).start
  | firstPostponed at' initial ranProcesses =>
    exact (tables (by simp [at', Phase.table]) false).startPostponed
  | ends start middle at' tn computed kernel' finish =>
    have same : middle.phase = kernel.phase ∧ middle.processes = kernel.processes := by
      obtain ⟨frame, -⟩ := computeNextTime_frame computed
      rw [frame]
      rcases at' with ⟨rfl, -⟩ | ⟨rfl, -⟩ <;> exact ⟨rfl, rfl⟩
    have rests : kernel.phase.table = [] := by
      rcases at' with ⟨-, at' | at' | ⟨kept, at'⟩⟩ | ⟨-, kept, at'⟩ <;> rw [at'] <;> rfl
    have before : middle.Listed := by
      unfold Listed
      rw [same.1, same.2]
      exact listed
    have rests : middle.phase.table = [] := same.1 ▸ rests
    cases finish with
    | postponed running later =>
      unfold Listed at before
      rw [rests] at before
      exact before.startPostponed
    | delta running now =>
      unfold endDelta
      split <;> exact before.rest rests rfl (.refl _)
    | lastKnownDelta | initialization | endOfTimeStep | timeStep =>
      exact before.rest rests rfl (.refl _)

theorem Listed.step {label : Label} (listed : kernel.Listed) (scheduled : kernel.Scheduled design cells)
    (enabled : kernel.enabled design label = true) (result : kernel.step design label = .ok kernel') :
    kernel'.Listed := by
  cases label with
  | tick => exact listed.ticks (tick_cases enabled result)
  | run again =>
    obtain ⟨postponed, p, table, at', resumed, runs⟩ := runProcess_cases enabled result
    obtain ⟨cells', _, _, -, ran, -⟩ := scheduled.runs at' resumed runs
    unfold Listed at listed
    rw [at'] at listed
    obtain ⟨rest, fresh⟩ := Processes.Listed.tail listed
    have kept : kernel'.processes.Listed table postponed :=
      rest.update fresh ran.others ran.resumeTable ran.postponedTable
    cases runs <;> exact kept
  | call call =>
    simp only [Kernel.step] at result
    split at result
    · obtain ⟨signals, -, result⟩ := bind_ok.mp result
      rw [← Except.ok.inj result]
      exact listed
    · exact Except.ok.inj result ▸ listed
  | suspend suspension =>
    simp only [Kernel.step] at result
    split at result
    · next p postponed table at' =>
      obtain ⟨middle, suspended, result⟩ := bind_ok.mp result
      have may : kernel.maySuspend design p suspension = true := by
        simpa [Kernel.enabled, at'] using enabled
      obtain ⟨cells', _, _, -, suspends, -⟩ := scheduled.suspends at' may suspended
      have idle := (scheduled.running p postponed table at').1.idle
      unfold Listed at listed
      rw [at'] at listed
      have listed : kernel.processes.Listed table postponed := listed
      rw [← Except.ok.inj result]
      exact listed.update (listed.not_mem idle) suspends.others suspends.resumeTable suspends.postponedTable
    · exact Except.ok.inj result ▸ listed
  | callback call =>
    rw [← Except.ok.inj result, callbackCall_frame]
    exact listed

end Kernel

namespace Setup

variable {design : Design} {setup : Setup}

theorem kernel_listed (wellFormed : setup.WellFormed design) : (setup.kernel design).Listed := by
  have registered := register_registered wellFormed
  have empty : (setup.register design).1.Listed [] false := by
    constructor <;> simp [Processes.toRun, registered.tables]
  exact empty.resumeProcesses (List.range (setup.register design).1.count)

end Setup

end Ghdl.Grt
