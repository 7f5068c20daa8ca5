import Ghdl.Grt.Processes
import Ghdl.Linked.Doubly

/-!
# The chain of timeouts

What the operations of `Grt.Processes` do to `Process_Timeout_Chain`, as edits of the doubly linked
list of the processes on it.
-/

namespace Ghdl.Grt

open Linked

/-- The record of a process up to its links. -/
def Process.Relinked (proc proc' : Process) : Prop :=
  ∃ next prev, proc' = { proc with chainNext := next, chainPrev := prev }

theorem Process.Relinked.of_eq {proc proc' proc'' : Process} (same : proc = proc')
    (relinked : proc'.Relinked proc'') : proc.Relinked proc'' := same ▸ relinked

/-- The timeout of the process counts when the next one is looked for. -/
def Process.HasTimeout (proc : Process) : Prop :=
  (proc.state = .delayed ∨ proc.state = .wait) ∧ 0 < proc.timeout

instance (proc : Process) : Decidable proc.HasTimeout :=
  inferInstanceAs (Decidable (_ ∧ _))

/-- The process is suspended until a time. -/
def Process.Due (now : Int) (proc : Process) : Prop :=
  (proc.state = .delayed ∨ proc.state = .wait) ∧ proc.timeout = now

instance (now : Int) (proc : Process) : Decidable (proc.Due now) :=
  inferInstanceAs (Decidable (_ ∧ _))

/-- The record of a process after those that are suspended until the current time are awaked. -/
def Process.awaken (now : Int) (proc : Process) : Process :=
  if proc.Due now then { proc with
    resumed := true
    state := if proc.state = .delayed then .ready else .timeout
    timeout := StdTime.bad }
  else proc

namespace Process.Relinked

variable {proc proc' proc'' : Process}

section

variable (relinked : proc.Relinked proc')
include relinked

/-- The state is not a link. -/
theorem state : proc'.state = proc.state := by
  obtain ⟨_, _, rfl⟩ := relinked
  rfl

/-- The flag is not a link. -/
theorem resumed : proc'.resumed = proc.resumed := by
  obtain ⟨_, _, rfl⟩ := relinked
  rfl

/-- Whether the process is postponed is not a link. -/
theorem postponed : proc'.postponed = proc.postponed := by
  obtain ⟨_, _, rfl⟩ := relinked
  rfl

/-- The timeout is not a link. -/
theorem timeout : proc'.timeout = proc.timeout := by
  obtain ⟨_, _, rfl⟩ := relinked
  rfl

/-- The sensitivity is not a link. -/
theorem sensitivity : proc'.sensitivity = proc.sensitivity := by
  obtain ⟨_, _, rfl⟩ := relinked
  rfl

end

/-- Whether a process is due does not depend on the links. -/
theorem due {now : Int} (relinked : proc.Relinked proc') : proc'.Due now ↔ proc.Due now := by
  obtain ⟨_, _, rfl⟩ := relinked
  exact Iff.rfl

/-- Links may change twice. -/
theorem trans (first : proc.Relinked proc') (second : proc'.Relinked proc'') : proc.Relinked proc'' := by
  obtain ⟨_, _, rfl⟩ := first
  obtain ⟨next, prev, rfl⟩ := second
  exact ⟨next, prev, rfl⟩

/-- Awaking a process leaves the links. -/
theorem awaken (relinked : proc.Relinked proc') (now : Int) : (proc.awaken now).Relinked (proc'.awaken now) := by
  have same : proc'.Due now ↔ proc.Due now := relinked.due
  obtain ⟨next, prev, rfl⟩ := relinked
  refine ⟨next, prev, ?_⟩
  by_cases due : proc.Due now
  · rw [Process.awaken, if_pos (same.mpr due), Process.awaken, if_pos due]
  · rw [Process.awaken, if_neg (fun other => due (same.mp other)), Process.awaken, if_neg due]

end Process.Relinked

namespace Processes

/-- These processes are on `Process_Timeout_Chain`. -/
def Chain (procs : Processes) (cells : List ProcId) : Prop :=
  Doubly (fun p => (procs.proc p).chainNext) (fun p => (procs.proc p).chainPrev) procs.timeoutChain
    cells

variable {procs procs' : Processes} {cells : List ProcId} {p q : ProcId}

@[simp] theorem modify_self (f : Process → Process) :
    (procs.modify p f).proc p = f (procs.proc p) := Function.update_self _ _ _

theorem modify_of_ne (different : q ≠ p) (f : Process → Process) :
    (procs.modify p f).proc q = procs.proc q := Function.update_of_ne different _ _

theorem modify_id (procs : Processes) (p : ProcId) : procs.modify p id = procs := by
  rw [modify, id, Function.update_eq_self]

theorem modify_modify (procs : Processes) (p : ProcId) (f g : Process → Process) :
    (procs.modify p f).modify p g = procs.modify p fun proc => g (f proc) := by
  simp only [modify, Function.update_self, Function.update_idem]

/-- The chain depends only on its links. -/
theorem Chain.congr (chain : procs.Chain cells) (forward : ∀ p, (procs'.proc p).chainNext = (procs.proc p).chainNext)
    (backward : ∀ p, (procs'.proc p).chainPrev = (procs.proc p).chainPrev)
    (head : procs'.timeoutChain = procs.timeoutChain) : procs'.Chain cells := by
  unfold Chain
  simp only [forward, backward, head]
  exact chain

theorem updateProcessFirstTimeout_eq (procs : Processes) (p : ProcId) (fresh : procs.timeoutChain ≠ some p) :
    procs.updateProcessFirstTimeout p = { procs with
      firstTimeout := min (procs.proc p).timeout procs.firstTimeout
      timeoutChain := some p
      proc := fun q => { procs.proc q with
        chainNext := Doubly.insertNext (fun p => (procs.proc p).chainNext) procs.timeoutChain p q
        chainPrev := Doubly.insertPrev (fun p => (procs.proc p).chainPrev) procs.timeoutChain p q } } := by
  have first : (if (procs.proc p).timeout < procs.firstTimeout then
      { procs with firstTimeout := (procs.proc p).timeout } else procs) =
      { procs with firstTimeout := min (procs.proc p).timeout procs.firstTimeout } := by
    split
    · next less => rw [min_eq_left (le_of_lt less)]
    · next more => rw [min_eq_right (not_lt.mp more)]
  rw [updateProcessFirstTimeout, first]
  cases start : procs.timeoutChain with
  | none =>
    simp only [modify, Doubly.insertNext, Doubly.insertPrev, Processes.mk.injEq, true_and, and_true]
    funext q
    by_cases same : q = p
    · subst same
      simp only [Function.update_self]
    · simp only [Function.update_of_ne same]
  | some head =>
    have different : head ≠ p := fun same => fresh (by rw [start, same])
    simp only [modify, Doubly.insertNext, Doubly.insertPrev, Processes.mk.injEq, true_and, and_true]
    funext q
    by_cases same : q = p
    · subst same
      simp only [Function.update_self, Function.update_of_ne different.symm]
    · by_cases atHead : q = head
      · subst atHead
        simp only [Function.update_self, Function.update_of_ne same]
      · simp only [Function.update_of_ne same, Function.update_of_ne atHead]

section

variable (chain : procs.Chain cells)
include chain

theorem removeProcess_eq (p : ProcId) :
    procs.removeProcessFromTimeoutChain p = { procs with
      timeoutChain := Doubly.removeHead (fun p => (procs.proc p).chainNext) procs.timeoutChain p
      proc := fun q => { procs.proc q with
        chainNext := Doubly.removeNext (fun p => (procs.proc p).chainNext) (fun p => (procs.proc p).chainPrev) p q
        chainPrev := Doubly.removePrev (fun p => (procs.proc p).chainNext)
          (fun p => (procs.proc p).chainPrev) p q } } := by
  cases before : (procs.proc p).chainPrev with
  | none =>
    have start : (if procs.timeoutChain = some p then
        { procs with timeoutChain := (procs.proc p).chainNext } else procs) =
        { procs with timeoutChain :=
          Doubly.removeHead (fun p => (procs.proc p).chainNext) procs.timeoutChain p } := by
      unfold Doubly.removeHead
      split <;> rfl
    simp only [removeProcessFromTimeoutChain, before, start]
    cases after : (procs.proc p).chainNext with
    | none =>
      simp only [modify, Doubly.removeNext, Doubly.removePrev, before, after, Processes.mk.injEq, true_and, and_true]
      funext q
      by_cases same : q = p
      · subst same
        simp only [Function.update_self]
      · simp only [Function.update_of_ne same]
    | some next =>
      have different : next ≠ p := fun same => chain.next_ne p (after.trans (congrArg some same))
      simp only [modify, Doubly.removeNext, Doubly.removePrev, before, after, Processes.mk.injEq, true_and, and_true]
      funext q
      by_cases same : q = p
      · subst same
        simp only [Function.update_self, Function.update_of_ne different.symm]
      · by_cases atNext : q = next
        · subst atNext
          simp only [Function.update_self, Function.update_of_ne same]
        · simp only [Function.update_of_ne same, Function.update_of_ne atNext]
  | some prev =>
    have different : prev ≠ p := fun same => chain.prev_ne p (before.trans (congrArg some same))
    have start : Doubly.removeHead (fun p => (procs.proc p).chainNext) procs.timeoutChain p =
        procs.timeoutChain := by
      refine if_neg fun first => ?_
      have behind : (procs.proc p).chainPrev = none := chain.prev_head first
      exact absurd (before.symm.trans behind) (by simp)
    simp only [removeProcessFromTimeoutChain, before, start, modify, Function.update_of_ne different.symm]
    cases after : (procs.proc p).chainNext with
    | none =>
      simp only [Doubly.removeNext, Doubly.removePrev, before, after, Processes.mk.injEq, true_and, and_true]
      funext q
      by_cases same : q = p
      · subst same
        simp only [Function.update_self, Function.update_of_ne different.symm, after]
      · by_cases atPrev : q = prev
        · subst atPrev
          simp only [Function.update_self, Function.update_of_ne same]
        · simp only [Function.update_of_ne same, Function.update_of_ne atPrev]
    | some next =>
      have different' : next ≠ p := fun same => chain.next_ne p (after.trans (congrArg some same))
      simp only [Doubly.removeNext, Doubly.removePrev, before, after, Processes.mk.injEq,
        true_and, and_true, Function.update_self, Function.update_of_ne different'.symm,
        Function.update_of_ne different.symm]
      funext q
      by_cases same : q = p
      · subst same
        simp only [Function.update_self]
      by_cases atPrev : q = prev
      · subst atPrev
        by_cases atNext : q = next
        · subst atNext
          simp only [Function.update_self, Function.update_of_ne same]
        · simp only [Function.update_self, Function.update_of_ne same, Function.update_of_ne atNext]
      by_cases atNext : q = next
      · subst atNext
        simp only [Function.update_self, Function.update_of_ne same, Function.update_of_ne atPrev]
      · simp only [Function.update_of_ne same, Function.update_of_ne atPrev, Function.update_of_ne atNext]

theorem Chain.modify (p : ProcId) {f : Process → Process}
    (keeps : ∀ proc, (f proc).chainNext = proc.chainNext ∧ (f proc).chainPrev = proc.chainPrev) :
    (procs.modify p f).Chain cells := by
  refine chain.congr (fun q => ?_) (fun q => ?_) rfl
  · by_cases same : q = p
    · rw [same, modify_self, (keeps _).1]
    · rw [modify_of_ne same]
  · by_cases same : q = p
    · rw [same, modify_self, (keeps _).2]
    · rw [modify_of_ne same]

theorem Chain.head_mem (first : procs.timeoutChain = some p) : p ∈ cells := by
  have path := chain.path
  cases cells with
  | nil => exact absurd (first.symm.trans path) (by simp)
  | cons q l => exact Option.some.inj (first.symm.trans path.1) ▸ List.mem_cons_self

theorem Chain.insert (fresh : p ∉ cells) :
    (procs.updateProcessFirstTimeout p).Chain (p :: cells) := by
  rw [updateProcessFirstTimeout_eq procs p fun first => fresh (chain.head_mem first)]
  exact Doubly.insert chain fresh

/-- Putting a process on the chain changes only links. -/
theorem Chain.insert_relinked (fresh : p ∉ cells) (q : ProcId) :
    (procs.proc q).Relinked ((procs.updateProcessFirstTimeout p).proc q) := by
  rw [updateProcessFirstTimeout_eq procs p fun first => fresh (chain.head_mem first)]
  exact ⟨_, _, rfl⟩

theorem Chain.remove (p : ProcId) :
    (procs.removeProcessFromTimeoutChain p).Chain (cells.erase p) := by
  rw [removeProcess_eq chain p]
  exact Doubly.remove chain p

/-- Taking a process off the chain changes only links. -/
theorem Chain.remove_relinked (p q : ProcId) :
    (procs.proc q).Relinked ((procs.removeProcessFromTimeoutChain p).proc q) := by
  rw [removeProcess_eq chain p]
  exact ⟨_, _, rfl⟩

end

/-- The earliest of a time and the timeouts of some processes. -/
def earliest (procs : Processes) : Int → List ProcId → Int
  | time, [] => time
  | time, p :: cells =>
    procs.earliest
      (if (procs.proc p).HasTimeout then min (procs.proc p).timeout time else time) cells

theorem earliest_le (procs : Processes) (time : Int) (cells : List ProcId) : procs.earliest time cells ≤ time := by
  induction cells generalizing time with
  | nil => exact le_refl time
  | cons p cells ih =>
    rw [earliest]
    refine (ih _).trans ?_
    split
    · exact min_le_right _ _
    · exact le_refl time

variable {time : Int}

theorem earliest_le_timeout (inside : p ∈ cells) (counts : (procs.proc p).HasTimeout) :
    procs.earliest time cells ≤ (procs.proc p).timeout := by
  induction cells generalizing time with
  | nil => simp at inside
  | cons q cells ih =>
    rcases List.mem_cons.mp inside with rfl | inside
    · rw [earliest, if_pos counts]
      exact (earliest_le procs _ cells).trans (min_le_left _ _)
    · exact ih inside

theorem earliest_cases (procs : Processes) (time : Int) (cells : List ProcId) : procs.earliest time cells = time ∨
      ∃ p ∈ cells, (procs.proc p).HasTimeout ∧ procs.earliest time cells = (procs.proc p).timeout := by
  induction cells generalizing time with
  | nil => exact .inl rfl
  | cons q cells ih =>
    rcases ih (if (procs.proc q).HasTimeout then min (procs.proc q).timeout time else time) with
      same | ⟨p, inside, counts, same⟩
    · by_cases counts : (procs.proc q).HasTimeout
      · rw [if_pos counts] at same
        rcases min_choice (procs.proc q).timeout time with first | second
        · refine .inr ⟨q, List.mem_cons_self, counts, ?_⟩
          rw [earliest, if_pos counts, same, first]
        · exact .inl (by rw [earliest, if_pos counts, same, second])
      · rw [if_neg counts] at same
        exact .inl (by rw [earliest, if_neg counts, same])
    · exact .inr ⟨p, List.mem_cons_of_mem q inside, counts, same⟩

/-- The earliest time depends on the states and the timeouts only. -/
theorem earliest_congr (same : ∀ p ∈ cells, (procs.proc p).Relinked (procs'.proc p)) :
    procs'.earliest time cells = procs.earliest time cells := by
  induction cells generalizing time with
  | nil => rfl
  | cons q cells ih =>
    obtain ⟨next, prev, relinked⟩ := same q List.mem_cons_self
    have rest := fun time => @ih time fun p inside => same p (List.mem_cons_of_mem q inside)
    rw [earliest, earliest, rest, relinked]
    rfl

/-- The loop of `Ghdl_Process_Wait_Close` finds the earliest timeout. -/
theorem nextTimeoutFrom_eq {fuel : Nat} {start back : Option ProcId}
    (path : DoublePath (fun p => (procs.proc p).chainNext) (fun p => (procs.proc p).chainPrev)
      start back cells) (fits : cells.length ≤ fuel) :
    procs.nextTimeoutFrom fuel time start = .ok (procs.earliest time cells) := by
  induction cells generalizing fuel time start back with
  | nil =>
    obtain rfl := path
    cases fuel <;> rfl
  | cons p cells ih =>
    obtain ⟨rfl, -, rest⟩ := path
    cases fuel with
    | zero => simp at fits
    | succ fuel =>
      rw [nextTimeoutFrom, ih rest (by simpa using fits), earliest]
      congr 2
      by_cases counts : (procs.proc p).HasTimeout
      · rw [if_pos counts]
        by_cases earlier : (procs.proc p).timeout < time
        · rw [if_pos ⟨counts.1, counts.2, earlier⟩, min_eq_left (le_of_lt earlier)]
        · rw [if_neg fun all => earlier all.2.2, min_eq_right (not_lt.mp earlier)]
      · rw [if_neg counts, if_neg fun all => counts ⟨all.1, all.2.1⟩]

theorem Relinks.modify (relinks : ∀ q, (procs.proc q).Relinked (procs'.proc q)) (p : ProcId) {f : Process → Process}
    (keeps : ∀ proc proc', Process.Relinked proc proc' → (f proc).Relinked (f proc')) (q : ProcId) :
    ((procs.modify p f).proc q).Relinked ((procs'.modify p f).proc q) := by
  by_cases same : q = p
  · rw [same, modify_self, modify_self]
    exact keeps _ _ (relinks p)
  · rw [modify_of_ne same, modify_of_ne same]
    exact relinks q

/-- The wait statement of a process is closed: the process is taken off the chain and gets ready, and the
first timeout is looked for if it may have been that of the process. -/
theorem waitClose_spec (chain : procs.Chain cells) (bounded : cells.length ≤ procs.count) (p : ProcId) :
    ∃ procs', procs.waitClose p = .ok procs' ∧ procs'.Chain (cells.erase p) ∧
      (∀ q, ((procs.modify p fun proc => { proc with timeout := StdTime.bad, state := .ready }).proc
        q).Relinked (procs'.proc q)) ∧
      procs'.count = procs.count ∧ procs'.resumeTable = procs.resumeTable ∧
      procs'.postponedTable = procs.postponedTable ∧
      procs'.firstTimeout = if procs.firstTimeout = (procs.proc p).timeout then
        procs.earliest StdTime.last (cells.erase p) else procs.firstTimeout := by
  have removed := chain.remove p
  have relinks := chain.remove_relinked p
  have fields : (procs.removeProcessFromTimeoutChain p).firstTimeout = procs.firstTimeout ∧
      (procs.removeProcessFromTimeoutChain p).count = procs.count ∧
      (procs.removeProcessFromTimeoutChain p).resumeTable = procs.resumeTable ∧
      (procs.removeProcessFromTimeoutChain p).postponedTable = procs.postponedTable := by
    rw [removeProcess_eq chain p]
    exact ⟨rfl, rfl, rfl, rfl⟩
  unfold waitClose
  generalize procs.removeProcessFromTimeoutChain p = next at removed relinks fields
  obtain ⟨first, count, resume, postponed⟩ := fields
  obtain ⟨_, _, ofProc⟩ := relinks p
  have timeout : (next.proc p).timeout = (procs.proc p).timeout := by rw [ofProc]
  have stopped : (next.setTimeout p StdTime.bad).Chain (cells.erase p) := removed.modify p fun _ => ⟨rfl, rfl⟩
  have fits : (cells.erase p).length ≤ (next.setTimeout p StdTime.bad).count + 1 := by
    have shorter := List.length_erase_le (a := p) (l := cells)
    have sameCount : (next.setTimeout p StdTime.bad).count = procs.count := count
    omega
  have found : (next.setTimeout p StdTime.bad).nextTimeoutFrom
      ((next.setTimeout p StdTime.bad).count + 1) StdTime.last
      (next.setTimeout p StdTime.bad).timeoutChain =
      .ok (procs.earliest StdTime.last (cells.erase p)) := by
    rw [nextTimeoutFrom_eq stopped.path fits, earliest_congr fun q inside => ?_]
    have other : q ≠ p := fun same => by
      rw [same] at inside
      exact chain.nodup.not_mem_erase inside
    rw [setTimeout, modify_of_ne other]
    exact relinks q
  have ready : ((next.setTimeout p StdTime.bad).setState p .ready).Chain (cells.erase p) :=
    stopped.modify p fun _ => ⟨rfl, rfl⟩
  have closed : ∀ q, ((procs.modify p fun proc =>
      { proc with timeout := StdTime.bad, state := .ready }).proc q).Relinked
      (((next.setTimeout p StdTime.bad).setState p .ready).proc q) := by
    intro q
    have same : (next.setTimeout p StdTime.bad).setState p .ready =
        next.modify p fun proc => { proc with timeout := StdTime.bad, state := .ready } := by
      simp only [setState, setTimeout, modify, Function.update_self, Function.update_idem]
    rw [same]
    refine Relinks.modify relinks p (fun proc proc' ⟨n, q, eq⟩ => ⟨n, q, ?_⟩) q
    rw [eq]
  simp only [timeout, first]
  split
  · refine ⟨{ (next.setTimeout p StdTime.bad).setState p .ready with
      firstTimeout := procs.earliest StdTime.last (cells.erase p) }, by rw [found]; rfl, ?_, closed,
      count, resume, postponed, rfl⟩
    exact ready.congr (fun _ => rfl) (fun _ => rfl) rfl
  · exact ⟨_, rfl, ready, closed, count, resume, postponed, first⟩

/-- Every resumed process is to be run: it is in the table that is being run or in its own table. The
tables hold processes of the design. -/
structure Tabled (procs : Processes) (table : List ProcId) : Prop where
  /-- A resumed process is in a table. -/
  resumed : ∀ q, (procs.proc q).resumed = true → q ∈ table ∨
    q ∈ if (procs.proc q).postponed then procs.postponedTable else procs.resumeTable
  /-- The processes of the tables are in the process table. -/
  bounded : ∀ q ∈ table ++ procs.resumeTable ++ procs.postponedTable, q < procs.count

variable {table : List ProcId}

/-- Whether the resumed processes are in a table depends only on their flags. -/
theorem Tabled.congr (tabled : procs.Tabled table) (flags : ∀ q, (procs'.proc q).resumed = (procs.proc q).resumed ∧
      (procs'.proc q).postponed = (procs.proc q).postponed) (resume : procs'.resumeTable = procs.resumeTable)
    (postpone : procs'.postponedTable = procs.postponedTable)
    (count : procs'.count = procs.count) : procs'.Tabled table where
  resumed q resumed := by
    rw [(flags q).1] at resumed
    rw [(flags q).2, resume, postpone]
    exact tabled.resumed q resumed
  bounded := by
    rw [resume, postpone, count]
    exact tabled.bounded

theorem Tabled.modify {table : List ProcId} (tabled : procs.Tabled table) (p : ProcId) {f : Process → Process}
    (keeps : ∀ proc, (f proc).resumed = proc.resumed ∧ (f proc).postponed = proc.postponed) :
    (procs.modify p f).Tabled table := by
  refine tabled.congr (fun q => ?_) rfl rfl rfl
  by_cases same : q = p
  · rw [same, modify_self]
    exact keeps _
  · rw [modify_of_ne same]
    exact ⟨rfl, rfl⟩

theorem Tabled.remove (tabled : procs.Tabled table) (chain : procs.Chain cells) (p : ProcId) :
    (procs.removeProcessFromTimeoutChain p).Tabled table := by
  rw [removeProcess_eq chain p]
  exact tabled.congr (fun q => ⟨rfl, rfl⟩) rfl rfl rfl

theorem resumeProcess_proc (procs : Processes) (p : ProcId) :
    (procs.resumeProcess p).proc = (procs.modify p fun proc => { proc with resumed := true }).proc := by
  unfold resumeProcess
  split
  · next already =>
    rw [modify, ← already]
    exact (Function.update_eq_self p procs.proc).symm
  · dsimp only
    split <;> rfl

theorem resumeProcess_setState (procs : Processes) (p : ProcId) (state : ProcessState) :
    ((procs.resumeProcess p).setState p state).proc =
      (procs.modify p fun proc => { proc with resumed := true, state }).proc := by
  have twice := congrArg proc (modify_modify procs p
    (fun proc => { proc with resumed := true }) fun proc => { proc with state })
  rw [← twice]
  simp only [setState, modify, resumeProcess_proc]

theorem resumeProcess_fields (procs : Processes) (p : ProcId) : (procs.resumeProcess p).count = procs.count ∧
      (procs.resumeProcess p).firstTimeout = procs.firstTimeout ∧
      (procs.resumeProcess p).timeoutChain = procs.timeoutChain := by
  unfold resumeProcess
  split
  · exact ⟨rfl, rfl, rfl⟩
  · dsimp only
    split <;> exact ⟨rfl, rfl, rfl⟩

theorem Chain.resumeProcess (chain : procs.Chain cells) (p : ProcId) : (procs.resumeProcess p).Chain cells := by
  have modified : (procs.modify p fun proc => { proc with resumed := true }).Chain cells :=
    chain.modify p fun _ => ⟨rfl, rfl⟩
  refine modified.congr (fun q => ?_) (fun q => ?_) ?_
  · rw [resumeProcess_proc]
  · rw [resumeProcess_proc]
  · exact (resumeProcess_fields procs p).2.2

/-- The process is put in its table, unless it is in there already. -/
theorem resumeProcess_tables (procs : Processes) (p : ProcId) :
    (procs.resumeProcess p).resumeTable = procs.resumeTable ++
        (if (procs.proc p).resumed || (procs.proc p).postponed then [] else [p]) ∧
      (procs.resumeProcess p).postponedTable = procs.postponedTable ++
        (if (procs.proc p).resumed || !(procs.proc p).postponed then [] else [p]) := by
  unfold resumeProcess
  cases (procs.proc p).resumed <;> cases (procs.proc p).postponed <;> simp [modify]

theorem Tabled.resumeProcess (tabled : procs.Tabled table)
    (known : p < procs.count) : (procs.resumeProcess p).Tabled table := by
  obtain ⟨resume, postpone⟩ := resumeProcess_tables procs p
  constructor
  · intro q
    rw [resumeProcess_proc, resume, postpone]
    have before := tabled.resumed q
    by_cases same : q = p
    · subst same
      rw [modify_self]
      cases already : (procs.proc q).resumed <;> cases kind : (procs.proc q).postponed <;> simp_all
    · rw [modify_of_ne same]
      intro resumed
      refine (before resumed).imp_right fun inside => ?_
      cases kind : (procs.proc q).postponed <;> simp_all
  · intro q inside
    rw [(resumeProcess_fields procs p).1]
    have bounded := tabled.bounded q
    rw [resume, postpone] at inside
    simp only [List.mem_append] at inside bounded
    rcases inside with (inside | inside | inside) | inside | inside
    · exact bounded (.inl (.inl inside))
    · exact bounded (.inl (.inr inside))
    · split at inside
      · simp at inside
      · exact List.mem_singleton.mp inside ▸ known
    · exact bounded (.inr inside)
    · split at inside
      · simp at inside
      · exact List.mem_singleton.mp inside ▸ known

/-- The edit of a process that is awaked: one that only waits for the timeout leaves the chain. -/
def awakeOne (procs : Processes) (p : ProcId) : Processes :=
  if (procs.proc p).state = .delayed then
    (((procs.setTimeout p StdTime.bad).removeProcessFromTimeoutChain p).resumeProcess p).setState p
      .ready
  else ((procs.setTimeout p StdTime.bad).resumeProcess p).setState p .timeout

theorem awakeOne_spec {now : Int} (chain : procs.Chain cells) (due : (procs.proc p).Due now) :
    (procs.awakeOne p).Chain (if (procs.proc p).state = .delayed then cells.erase p else cells) ∧
      (∀ q, ((procs.modify p (Process.awaken now)).proc q).Relinked ((procs.awakeOne p).proc q)) ∧
      (procs.awakeOne p).count = procs.count ∧ (procs.awakeOne p).firstTimeout = procs.firstTimeout ∧
      ∀ table, procs.Tabled table → p < procs.count → (procs.awakeOne p).Tabled table := by
  have stopped : (procs.setTimeout p StdTime.bad).Chain cells := chain.modify p fun _ => ⟨rfl, rfl⟩
  have stoppedTabled : ∀ table, procs.Tabled table →
      (procs.setTimeout p StdTime.bad).Tabled table := fun _ tabled =>
    tabled.modify p fun _ => ⟨rfl, rfl⟩
  unfold awakeOne
  by_cases delayed : (procs.proc p).state = .delayed
  · rw [if_pos delayed, if_pos delayed]
    have removed := stopped.remove p
    have relinks := stopped.remove_relinked p
    have removedTabled := fun table tabled => (stoppedTabled table tabled).remove stopped p
    have fields : ((procs.setTimeout p StdTime.bad).removeProcessFromTimeoutChain p).count =
          procs.count ∧
        ((procs.setTimeout p StdTime.bad).removeProcessFromTimeoutChain p).firstTimeout = procs.firstTimeout := by
      rw [removeProcess_eq stopped p]
      exact ⟨rfl, rfl⟩
    generalize (procs.setTimeout p StdTime.bad).removeProcessFromTimeoutChain p = next
      at removed relinks removedTabled fields ⊢
    obtain ⟨count, first, -⟩ := resumeProcess_fields next p
    refine ⟨(removed.resumeProcess p).modify p fun _ => ⟨rfl, rfl⟩, fun q => ?_, ?_, ?_, ?_⟩
    · rw [resumeProcess_setState]
      have again := @Relinks.modify _ _ relinks p
        (fun proc => { proc with resumed := true, state := .ready })
        (fun proc proc' ⟨n, q, eq⟩ => ⟨n, q, by rw [eq]⟩) q
      rw [setTimeout, modify_modify] at again
      refine Process.Relinked.of_eq ?_ again
      by_cases here : q = p
      · rw [here, modify_self, modify_self, Process.awaken, if_pos due, if_pos delayed]
      · rw [modify_of_ne here, modify_of_ne here]
    · exact count.trans fields.1
    · exact first.trans fields.2
    · intro table tabled known
      have known' : p < next.count := fields.1 ▸ known
      exact ((removedTabled table tabled).resumeProcess known').modify p fun _ => ⟨rfl, rfl⟩
  · rw [if_neg delayed, if_neg delayed]
    obtain ⟨count, first, -⟩ := resumeProcess_fields (procs.setTimeout p StdTime.bad) p
    refine ⟨(stopped.resumeProcess p).modify p fun _ => ⟨rfl, rfl⟩, fun q => ?_, count, first, ?_⟩
    · have same : (((procs.setTimeout p StdTime.bad).resumeProcess p).setState p .timeout).proc =
          (procs.modify p (Process.awaken now)).proc := by
        rw [resumeProcess_setState, setTimeout, modify_modify]
        simp only [modify, Process.awaken, if_pos due, if_neg delayed]
      rw [same]
      exact ⟨_, _, rfl⟩
    · intro table tabled known
      exact ((stoppedTabled table tabled).resumeProcess known).modify p fun _ => ⟨rfl, rfl⟩

theorem Chain.next_eq {front l : List ProcId} (chain : procs.Chain (front ++ p :: l)) :
    (procs.proc p).chainNext = l.head? := by
  obtain ⟨r, -, path⟩ := Segment.append_iff.mp chain.path.segment
  obtain ⟨-, s, link, rest⟩ := path
  obtain rfl := Option.some.inj link
  cases l with
  | nil => exact rest
  | cons q l => exact rest.1

/-- The loop of `Simulation_Cycle` at a suspended process. -/
theorem awakeFrom_suspended {now tn : Int} (fuel : Nat)
    (suspended : (procs.proc p).state = .delayed ∨ (procs.proc p).state = .wait) :
    awakeFrom now (fuel + 1) procs tn (some p) =
      if (procs.proc p).Due now then awakeFrom now fuel (procs.awakeOne p) tn (procs.proc p).chainNext
      else awakeFrom now fuel procs
        (if (procs.proc p).HasTimeout then min (procs.proc p).timeout tn else tn) (procs.proc p).chainNext := by
  have later : (if 0 < (procs.proc p).timeout ∧ (procs.proc p).timeout < tn then
      (procs.proc p).timeout else tn) =
      if (procs.proc p).HasTimeout then min (procs.proc p).timeout tn else tn := by
    by_cases positive : 0 < (procs.proc p).timeout
    · rw [if_pos (show (procs.proc p).HasTimeout from ⟨suspended, positive⟩)]
      by_cases earlier : (procs.proc p).timeout < tn
      · rw [if_pos ⟨positive, earlier⟩, min_eq_left (le_of_lt earlier)]
      · rw [if_neg fun both => earlier both.2, min_eq_right (not_lt.mp earlier)]
    · rw [if_neg fun both => positive both.1, if_neg fun counts => positive counts.2]
  have due : (procs.proc p).Due now ↔ (procs.proc p).timeout = now :=
    ⟨fun due => due.2, fun same => ⟨suspended, same⟩⟩
  rw [awakeFrom, later, awakeOne]
  rcases suspended with state | state
  · simp only [due, state, if_true]
  · simp only [due, state, reduceCtorEq, if_false]

theorem awakeFrom_spec {now tn : Int} {fuel : Nat} {front l : List ProcId} {start : Option ProcId}
    (chain : procs.Chain (front ++ l)) (fits : l.length ≤ fuel) (first : start = l.head?)
    (suspended : ∀ p ∈ l, (procs.proc p).state = .delayed ∨ (procs.proc p).state = .wait) :
    ∃ procs', awakeFrom now fuel procs tn start =
        .ok (procs', procs.earliest tn (l.filter fun p => ¬(procs.proc p).Due now)) ∧
      procs'.Chain (front ++ l.filter fun p => ¬((procs.proc p).Due now ∧ (procs.proc p).state = .delayed)) ∧
      (∀ q, (if q ∈ l then (procs.proc q).awaken now else procs.proc q).Relinked (procs'.proc q)) ∧
      procs'.count = procs.count ∧ ∀ table, procs.Tabled table → (∀ p ∈ l, p < procs.count) → procs'.Tabled table := by
  induction l generalizing procs front tn fuel start with
  | nil =>
    subst first
    refine ⟨procs, ?_, chain, fun q => ⟨_, _, rfl⟩, rfl, fun _ tabled _ => tabled⟩
    cases fuel <;> rfl
  | cons p l ih =>
    obtain rfl : start = some p := first
    cases fuel with
    | zero => simp at fits
    | succ fuel =>
      have here := suspended p List.mem_cons_self
      have distinct := (List.nodup_append.mp chain.nodup).2.1
      rw [List.nodup_cons] at distinct
      rw [awakeFrom_suspended fuel here, chain.next_eq]
      by_cases due : (procs.proc p).Due now
      · rw [if_pos due]
        obtain ⟨awaked, relinks, count, -, tabled⟩ := awakeOne_spec chain due
        have other : ∀ q ∈ l, q ≠ p := fun q inside => ne_of_mem_of_not_mem inside distinct.1
        have same : ∀ q ∈ l, (procs.proc q).Relinked ((procs.awakeOne p).proc q) := by
          intro q inside
          have relinked := relinks q
          rwa [modify_of_ne (other q inside)] at relinked
        have split : ∃ front', (procs.awakeOne p).Chain (front' ++ l) ∧
            front' = front ++ if (procs.proc p).state = .delayed then [] else [p] := by
          refine ⟨_, ?_, rfl⟩
          by_cases delayed : (procs.proc p).state = .delayed
          · have fresh : p ∉ front := fun inside =>
              (List.nodup_append.mp chain.nodup).2.2 p inside p List.mem_cons_self rfl
            rw [if_pos delayed, List.erase_append_right _ fresh, List.erase_cons_head] at awaked
            rwa [if_pos delayed, List.append_nil]
          · rw [if_neg delayed] at awaked
            rw [if_neg delayed]
            simpa using awaked
        obtain ⟨front', chain', shape⟩ := split
        obtain ⟨procs', result, final, relinks', count', tabled'⟩ :=
          @ih (procs.awakeOne p) tn fuel front' l.head? chain' (by simpa using fits) rfl fun q inside => by
            rw [(same q inside).state]
            exact suspended q (List.mem_cons_of_mem p inside)
        have dues : (l.filter fun q => ¬((procs.awakeOne p).proc q).Due now) =
            l.filter fun q => ¬(procs.proc q).Due now :=
          List.filter_congr fun q inside => by simp only [(same q inside).due]
        have leaving : (l.filter fun q => ¬(((procs.awakeOne p).proc q).Due now ∧
              ((procs.awakeOne p).proc q).state = .delayed)) =
            l.filter fun q => ¬((procs.proc q).Due now ∧ (procs.proc q).state = .delayed) :=
          List.filter_congr fun q inside => by
            simp only [(same q inside).due, (same q inside).state]
        refine ⟨procs', ?_, ?_, fun q => ?_, count'.trans count, fun table before known => ?_⟩
        · rw [result, dues, List.filter_cons_of_neg (by simpa using due)]
          congr 2
          exact earliest_congr fun q inside => same q (List.mem_filter.mp inside).1
        · rw [leaving, shape] at final
          by_cases delayed : (procs.proc p).state = .delayed
          · rw [List.filter_cons_of_neg (by simp [due, delayed])]
            simpa [delayed] using final
          · rw [List.filter_cons_of_pos (by simp [delayed])]
            simpa [delayed] using final
        · have relinked := relinks' q
          by_cases here : q = p
          · subst here
            rw [if_neg distinct.1] at relinked
            rw [if_pos List.mem_cons_self]
            have awaken := relinks q
            rw [modify_self] at awaken
            exact awaken.trans relinked
          have before := relinks q
          rw [modify_of_ne here] at before
          simp only [List.mem_cons, here, false_or]
          by_cases inside : q ∈ l
          · rw [if_pos inside] at relinked ⊢
            exact (before.awaken now).trans relinked
          · rw [if_neg inside] at relinked ⊢
            exact before.trans relinked
        · refine tabled' table (tabled table before (known p List.mem_cons_self)) fun q inside => ?_
          rw [count]
          exact known q (List.mem_cons_of_mem p inside)
      · rw [if_neg due]
        have split : procs.Chain ((front ++ [p]) ++ l) := by simpa using chain
        obtain ⟨procs', result, chain', relinks, count, tabled⟩ :=
          @ih procs (if (procs.proc p).HasTimeout then min (procs.proc p).timeout tn else tn) fuel
            (front ++ [p]) l.head? split (by simpa using fits) rfl
            (fun q inside => suspended q (List.mem_cons_of_mem p inside))
        refine ⟨procs', ?_, ?_, fun q => ?_, count, fun table before known =>
          tabled table before fun q inside => known q (List.mem_cons_of_mem p inside)⟩
        · rw [result, List.filter_cons_of_pos (by simpa using due), earliest]
        · rw [List.filter_cons_of_pos (by simp [due])]
          simpa using chain'
        · refine Process.Relinked.of_eq ?_ (relinks q)
          by_cases same : q = p
          · subst same
            rw [if_pos List.mem_cons_self, if_neg distinct.1, Process.awaken, if_neg due]
          · simp only [List.mem_cons, same, false_or]

end Processes

end Ghdl.Grt
