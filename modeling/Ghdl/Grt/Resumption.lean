import Ghdl.Grt.Suspension

/-!
# Resuming and running processes

What `Resume_Process`, the scan of the timeout chain and `Run_Processes` do to processes that are sound.
The scan returns exactly when no process of the chain has been awaked before by its timeout.
-/

namespace Ghdl.Grt

open Fallible Linked

theorem Process.Relinked.hasTimeout {proc proc' : Process} (relinked : proc.Relinked proc') :
    proc'.HasTimeout ↔ proc.HasTimeout := by
  obtain ⟨_, _, rfl⟩ := relinked
  exact Iff.rfl

namespace Processes

variable {procs procs' : Processes} {cells cells' table table' : List ProcId} {p : ProcId}

theorem Sound.resumeProcess (sound : procs.Sound cells table) (known : p < procs.count)
    (may : (procs.proc p).state ≠ .delayed ∧ (procs.proc p).state ≠ .dead) :
    (procs.resumeProcess p).Sound cells table := by
  obtain ⟨count, first, -⟩ := resumeProcess_fields procs p
  have others : ∀ q, q ≠ p → (procs.resumeProcess p).proc q = procs.proc q := fun q different => by
    rw [resumeProcess_proc, modify_of_ne different]
  have self : (procs.resumeProcess p).proc p = { procs.proc p with resumed := true } := by
    rw [resumeProcess_proc, modify_self]
  refine sound.update p (sound.chain.resumeProcess p) (sound.tabled.resumeProcess known) count ?_ ?_ ?_ ?_ ?_ ?_
  · exact fun q different => ⟨_, _, others q different⟩
  · exact fun q inside _ => inside
  · intro inside
    rw [self]
    exact ⟨known, sound.suspended p inside⟩
  · intro _
    rw [self]
    exact may
  · intro _
    rw [self]
  · intro q inside counts
    rw [first]
    by_cases same : q = p
    · rw [same, self] at counts ⊢
      exact sound.first p (same ▸ inside) counts
    · rw [others q same] at counts ⊢
      exact sound.first q inside counts

theorem resumeProcesses_fields (procs : Processes) (resumed : List ProcId) :
    (resumed.foldl Processes.resumeProcess procs).count = procs.count ∧
      (resumed.foldl Processes.resumeProcess procs).firstTimeout = procs.firstTimeout ∧
      ∀ q, (resumed.foldl Processes.resumeProcess procs).proc q = { procs.proc q with
        resumed := (procs.proc q).resumed || decide (q ∈ resumed) } := by
  induction resumed generalizing procs with
  | nil => simp
  | cons p resumed ih =>
    obtain ⟨count, first, same⟩ := ih (procs.resumeProcess p)
    obtain ⟨count', first', -⟩ := resumeProcess_fields procs p
    refine ⟨count.trans count', first.trans first', fun q => ?_⟩
    rw [List.foldl_cons, same, resumeProcess_proc]
    by_cases here : q = p
    · subst here
      simp [modify_self]
    · simp [modify_of_ne here, here]

theorem Sound.resumeProcesses {resumed : List ProcId} (sound : procs.Sound cells table)
    (known : ∀ p ∈ resumed, p < procs.count)
    (may : ∀ p ∈ resumed, (procs.proc p).state ≠ .delayed ∧ (procs.proc p).state ≠ .dead) :
    (resumed.foldl Processes.resumeProcess procs).Sound cells table := by
  induction resumed generalizing procs with
  | nil => exact sound
  | cons p resumed ih =>
    have next := sound.resumeProcess (known p List.mem_cons_self) (may p List.mem_cons_self)
    obtain ⟨count, -, -⟩ := resumeProcess_fields procs p
    rw [List.foldl_cons]
    refine ih next (fun q inside => ?_) fun q inside => ?_
    · rw [count]
      exact known q (List.mem_cons_of_mem p inside)
    have same : ((procs.resumeProcess p).proc q).state = (procs.proc q).state := by
      rw [resumeProcess_proc]
      by_cases here : q = p
      · rw [here, modify_self]
      · rw [modify_of_ne here]
    rw [same]
    exact may q (List.mem_cons_of_mem p inside)

theorem Sound.length_le (sound : procs.Sound cells table) : cells.length ≤ procs.count := by
  have inside : cells ⊆ List.range procs.count := fun p inside =>
    List.mem_range.mpr (sound.bounded p inside)
  have shorter := (List.subperm_of_subset sound.chain.nodup inside).length_le
  rwa [List.length_range] at shorter

theorem awakeFrom_fails {now tn : Int} {fuel : Nat} {front l : List ProcId} {start : Option ProcId}
    (chain : procs.Chain (front ++ l)) (first : start = l.head?)
    (suspended : ∀ p ∈ l, (procs.proc p).state = .delayed ∨ (procs.proc p).state = .wait ∨
      (procs.proc p).state = .timeout) (expired : ∃ p ∈ l, (procs.proc p).state = .timeout) (result : Processes × Int) :
    awakeFrom now fuel procs tn start ≠ .ok result := by
  induction l generalizing procs front tn fuel start with
  | nil => simp at expired
  | cons p l ih =>
    obtain rfl : start = some p := first
    cases fuel with
    | zero => simp [awakeFrom]
    | succ fuel =>
      by_cases here : (procs.proc p).state = .timeout
      · rw [awakeFrom, here]
        simp
      have waits : (procs.proc p).state = .delayed ∨ (procs.proc p).state = .wait := by
        rcases suspended p List.mem_cons_self with state | state | state
        · exact .inl state
        · exact .inr state
        · exact absurd state here
      have rest : ∃ q ∈ l, (procs.proc q).state = .timeout := by
        obtain ⟨q, inside, state⟩ := expired
        rcases List.mem_cons.mp inside with same | inside
        · exact absurd (same ▸ state) here
        · exact ⟨q, inside, state⟩
      rw [awakeFrom_suspended fuel waits, chain.next_eq]
      split
      · next due =>
        obtain ⟨awaked, relinks, -⟩ := awakeOne_spec chain due
        have distinct := (List.nodup_append.mp chain.nodup).2.1
        rw [List.nodup_cons] at distinct
        have same : ∀ q ∈ l, ((procs.awakeOne p).proc q).state = (procs.proc q).state := by
          intro q inside
          have relinked := relinks q
          rw [modify_of_ne (ne_of_mem_of_not_mem inside distinct.1)] at relinked
          exact relinked.state
        have chain' : ∃ front', (procs.awakeOne p).Chain (front' ++ l) := by
          by_cases delayed : (procs.proc p).state = .delayed
          · have fresh : p ∉ front := fun inside =>
              (List.nodup_append.mp chain.nodup).2.2 p inside p List.mem_cons_self rfl
            rw [if_pos delayed, List.erase_append_right _ fresh, List.erase_cons_head] at awaked
            exact ⟨front, awaked⟩
          · rw [if_neg delayed] at awaked
            exact ⟨front ++ [p], by simpa using awaked⟩
        obtain ⟨front', chain'⟩ := chain'
        refine ih chain' rfl (fun q inside => ?_) ?_
        · rw [same q inside]
          exact suspended q (List.mem_cons_of_mem p inside)
        · obtain ⟨q, inside, state⟩ := rest
          exact ⟨q, inside, by rw [same q inside, state]⟩
      · have chain' : procs.Chain ((front ++ [p]) ++ l) := by simpa using chain
        exact ih chain' rfl (fun q inside => suspended q (List.mem_cons_of_mem p inside)) rest

/-- What the scan of the timeout chain does, if there are processes to awake. -/
structure Awakes (now : Int) (procs procs' : Processes) (cells cells' : List ProcId) : Prop where
  count : procs'.count = procs.count
  relinks : ∀ q, (if now = procs.firstTimeout ∧ q ∈ cells then (procs.proc q).awaken now
    else procs.proc q).Relinked (procs'.proc q)
  suspended : now = procs.firstTimeout → ∀ q ∈ cells,
    (procs.proc q).state = .delayed ∨ (procs.proc q).state = .wait
  members : ∀ q ∈ cells', q ∈ cells
  first : now ≠ procs.firstTimeout ∧ procs'.firstTimeout = procs.firstTimeout ∨
    now = procs.firstTimeout ∧ procs'.firstTimeout =
      procs.earliest StdTime.last (cells.filter fun q => ¬(procs.proc q).Due now)

theorem awaken_state (now : Int) {proc : Process} (suspended : proc.state = .delayed ∨ proc.state = .wait) :
    ((proc.awaken now).state = proc.state ∧ ¬proc.Due now ∧ proc.awaken now = proc) ∨
      proc.Due now ∧ (proc.awaken now).resumed = true ∧ ((proc.awaken now).state = .ready ∧ proc.state = .delayed ∨
          (proc.awaken now).state = .timeout ∧ proc.state = .wait) := by
  unfold Process.awaken
  by_cases due : proc.Due now
  · rw [if_pos due]
    refine .inr ⟨due, rfl, ?_⟩
    rcases suspended with state | state
    · exact .inl ⟨by simp [state], state⟩
    · exact .inr ⟨by simp [state], state⟩
  · rw [if_neg due]
    exact .inl ⟨rfl, due, rfl⟩

theorem Sound.awake_returns (now : Int) (sound : procs.Sound cells table)
    (suspended : now = procs.firstTimeout → ∀ p ∈ cells, (procs.proc p).state ≠ .timeout) :
    ∃ procs' cells', procs.awake now = .ok procs' ∧ procs'.Sound cells' table ∧
      Awakes now procs procs' cells cells' := by
  unfold Processes.awake
  by_cases due : now = procs.firstTimeout
  · rw [if_pos due]
    have waits : ∀ q ∈ cells, (procs.proc q).state = .delayed ∨ (procs.proc q).state = .wait := by
      intro q inside
      rcases sound.suspended q inside with state | state | state
      · exact .inl state
      · exact .inr state
      · exact absurd state (suspended due q inside)
    have fits := sound.length_le
    have head : procs.timeoutChain = cells.head? := by
      have path := sound.chain.path
      cases cells with
      | nil => exact path
      | cons q cells => exact path.1
    obtain ⟨procs', result, chain, relinks, count, tabled⟩ :=
      @awakeFrom_spec procs now StdTime.last (procs.count + 1) [] cells procs.timeoutChain
        sound.chain (by omega) head waits
    rw [List.nil_append] at chain
    refine ⟨{ procs' with
        firstTimeout := procs.earliest StdTime.last (cells.filter fun q => ¬(procs.proc q).Due now) },
      cells.filter fun q => ¬((procs.proc q).Due now ∧ (procs.proc q).state = .delayed),
      by rw [result]; rfl, ?_, ?_⟩
    · constructor
      · exact chain.congr (fun _ => rfl) (fun _ => rfl) rfl
      · intro q inside
        exact count ▸ sound.bounded q (List.mem_filter.mp inside).1
      · intro q inside
        have member := (List.mem_filter.mp inside).1
        have relinked := relinks q
        rw [if_pos member] at relinked
        show (procs'.proc q).state = _ ∨ (procs'.proc q).state = _ ∨ (procs'.proc q).state = _
        rw [relinked.state]
        rcases awaken_state now (waits q member) with
          ⟨same, -, -⟩ | ⟨isDue, -, ⟨-, was⟩ | ⟨state, -⟩⟩
        · rw [same]
          exact sound.suspended q member
        · have kept := (List.mem_filter.mp inside).2
          simp [isDue, was] at kept
        · exact .inr (.inr state)
      · exact (tabled table sound.tabled sound.bounded).congr (fun _ => ⟨rfl, rfl⟩) rfl rfl rfl
      · intro q
        have relinked := relinks q
        show (procs'.proc q).resumed = true → (procs'.proc q).state ≠ _ ∧ (procs'.proc q).state ≠ _
        rw [relinked.resumed, relinked.state]
        split
        · next member =>
          rcases awaken_state now (waits q member) with ⟨-, -, same⟩ | ⟨-, -, state⟩
          · rw [same]
            exact sound.awake q
          · intro _
            rcases state with ⟨state, -⟩ | ⟨state, -⟩ <;> simp [state]
        · exact sound.awake q
      · intro q
        have relinked := relinks q
        show (procs'.proc q).state = _ → (procs'.proc q).resumed = true
        rw [relinked.resumed, relinked.state]
        split
        · next member =>
          rcases awaken_state now (waits q member) with ⟨-, -, same⟩ | ⟨-, resumed, -⟩
          · rw [same]
            exact sound.expired q
          · exact fun _ => resumed
        · exact sound.expired q
      · intro q inside counts
        have member := (List.mem_filter.mp inside).1
        have relinked := relinks q
        rw [if_pos member] at relinked
        show _ ≤ (procs'.proc q).timeout
        have counts : ((procs.proc q).awaken now).HasTimeout := relinked.hasTimeout.mp counts
        rw [relinked.timeout]
        rcases awaken_state now (waits q member) with ⟨-, notDue, same⟩ | ⟨-, -, state⟩
        · rw [same] at counts ⊢
          exact earliest_le_timeout (List.mem_filter.mpr ⟨member, by simpa using notDue⟩) counts
        · rcases state with ⟨state, -⟩ | ⟨state, -⟩ <;> simp [Process.HasTimeout, state] at counts
    · refine ⟨count, fun q => ?_, fun _ => waits, fun q inside => (List.mem_filter.mp inside).1, .inr ⟨due, rfl⟩⟩
      simpa only [due, true_and] using relinks q
  · rw [if_neg due]
    refine ⟨procs, cells, rfl, sound, rfl, fun q => ?_, fun now => absurd now due,
      fun _ inside => inside, .inl ⟨due, rfl⟩⟩
    rw [if_neg fun both => due both.1]
    exact ⟨_, _, rfl⟩

theorem Sound.awake_suspended {now : Int} (sound : procs.Sound cells table) (result : procs.awake now = .ok procs') :
    now = procs.firstTimeout → ∀ p ∈ cells, (procs.proc p).state ≠ .timeout := by
  intro due p inside expired
  unfold Processes.awake at result
  rw [if_pos due] at result
  obtain ⟨scanned, result, -⟩ := bind_ok.mp result
  have head : procs.timeoutChain = cells.head? := by
    have path := sound.chain.path
    cases cells with
    | nil => exact path
    | cons q cells => exact path.1
  exact @awakeFrom_fails procs now StdTime.last (procs.count + 1) [] cells procs.timeoutChain
    sound.chain head sound.suspended ⟨p, inside, expired⟩ scanned result

theorem Sound.awake_spec {now : Int} (sound : procs.Sound cells table) (result : procs.awake now = .ok procs') :
    ∃ cells', procs'.Sound cells' table ∧ Awakes now procs procs' cells cells' := by
  obtain ⟨_, cells', result', final⟩ := sound.awake_returns now (sound.awake_suspended result)
  obtain rfl := Except.ok.inj (result'.symm.trans result)
  exact ⟨cells', final⟩

/-- What running a process does to the processes before the process itself does something. -/
structure Runs (p : ProcId) (state : ProcessState) (sensitivity : List SignalId)
    (procs procs' : Processes) (cells cells' : List ProcId) : Prop where
  count : procs'.count = procs.count
  others : ∀ q, q ≠ p → (procs.proc q).Relinked (procs'.proc q)
  postponed : (procs'.proc p).postponed = (procs.proc p).postponed
  idle : (procs'.proc p).resumed = false
  state : (procs'.proc p).state = state
  sensitivity : (procs'.proc p).sensitivity = sensitivity
  resumeTable : procs'.resumeTable = procs.resumeTable
  postponedTable : procs'.postponedTable = procs.postponedTable
  members : ∀ q ∈ cells', q ∈ cells
  stays : p ∈ cells' → (procs'.proc p).state = (procs.proc p).state ∧
    (procs'.proc p).timeout = (procs.proc p).timeout
  first : procs'.firstTimeout = procs.firstTimeout ∨
    p ∉ cells' ∧ procs'.firstTimeout = procs.earliest StdTime.last cells'

theorem Tabled.run {state : ProcessState} {sensitivity : List SignalId}
    (tabled : procs.Tabled (p :: table)) (runs : Runs p state sensitivity procs procs' cells cells') :
    procs'.Tabled table where
  resumed q resumed := by
    rw [runs.resumeTable, runs.postponedTable]
    by_cases same : q = p
    · subst same
      exact absurd (runs.idle.symm.trans resumed) (by simp)
    · rw [(runs.others q same).resumed] at resumed
      rw [(runs.others q same).postponed]
      exact (tabled.resumed q resumed).imp_left fun inside =>
        (List.mem_cons.mp inside).resolve_left same
  bounded q inside := by
    rw [runs.resumeTable, runs.postponedTable] at inside
    rw [runs.count]
    refine tabled.bounded q ?_
    rw [List.cons_append, List.cons_append]
    exact List.mem_cons_of_mem p inside

theorem Sound.run (sound : procs.Sound cells (p :: table)) {f : Process → Process}
    (links : ∀ proc, (f proc).chainNext = proc.chainNext ∧ (f proc).chainPrev = proc.chainPrev)
    (keeps : ∀ proc, (f proc).postponed = proc.postponed ∧ (f proc).timeout = proc.timeout ∧
      (f proc).sensitivity = proc.sensitivity) (idle : ∀ proc, (f proc).resumed = false)
    (state : (f (procs.proc p)).state = (procs.proc p).state) (other : (procs.proc p).state ≠ .timeout) :
    (procs.modify p f).Sound cells table ∧
      Runs p (procs.proc p).state (procs.proc p).sensitivity procs (procs.modify p f) cells cells := by
  have runs : Runs p (procs.proc p).state (procs.proc p).sensitivity procs (procs.modify p f)
      cells cells := by
    refine ⟨rfl, fun q different => ?_, ?_, ?_, ?_, ?_, rfl, rfl, fun _ inside => inside, fun _ => ?_, .inl rfl⟩
    · rw [modify_of_ne different]
      exact ⟨_, _, rfl⟩
    · rw [modify_self, (keeps _).1]
    · rw [modify_self, idle]
    · rw [modify_self, state]
    · rw [modify_self, (keeps _).2.2]
    · rw [modify_self]
      exact ⟨state, (keeps _).2.1⟩
  refine ⟨sound.update p (sound.chain.modify p links) (sound.tabled.run runs) rfl runs.others
    (fun q inside _ => inside) (fun inside => ?_) (fun resumed => ?_) (fun expired => ?_)
    (fun q inside counts => ?_), runs⟩
  · rw [runs.state]
    exact ⟨sound.bounded p inside, sound.suspended p inside⟩
  · exact absurd (runs.idle.symm.trans resumed) (by simp)
  · exact absurd (runs.state.symm.trans expired) other
  · by_cases same : q = p
    · subst same
      rw [modify_self, Process.HasTimeout, state, (keeps _).2.1] at counts
      rw [modify_self, (keeps _).2.1]
      exact sound.first q inside counts
    · rw [modify_of_ne same] at counts ⊢
      exact sound.first q inside counts

theorem Sound.close (sound : procs.Sound cells (p :: table))
    (closed : (procs.modify p fun proc => { proc with resumed := false, sensitivity := [] }).waitClose
      p = .ok procs') : procs'.Sound (cells.erase p) table ∧ Runs p .ready [] procs procs' cells (cells.erase p) := by
  have chain : (procs.modify p fun proc =>
      { proc with resumed := false, sensitivity := [] }).Chain cells :=
    sound.chain.modify p fun _ => ⟨rfl, rfl⟩
  obtain ⟨procs'', closed', chain', relinks, count, resume, postpone, first⟩ := waitClose_spec chain sound.length_le p
  obtain rfl := Except.ok.inj (closed'.symm.trans closed)
  have off : p ∉ cells.erase p := chain.nodup.not_mem_erase
  have others : ∀ q, q ≠ p → (procs.proc q).Relinked (procs''.proc q) := by
    intro q different
    have relinked := relinks q
    rwa [modify_of_ne different, modify_of_ne different] at relinked
  have self := relinks p
  rw [modify_self, modify_self] at self
  have earliest : (procs.modify p fun proc =>
      { proc with resumed := false, sensitivity := [] }).earliest StdTime.last (cells.erase p) =
      procs.earliest StdTime.last (cells.erase p) := by
    refine earliest_congr fun q inside => ?_
    rw [modify_of_ne (ne_of_mem_of_not_mem inside off)]
    exact ⟨_, _, rfl⟩
  have runs : Runs p .ready [] procs procs'' cells (cells.erase p) := by
    refine ⟨count, others, self.postponed, self.resumed, self.state, self.sensitivity, resume, postpone,
      fun q inside => List.mem_of_mem_erase inside, fun inside => absurd inside off, ?_⟩
    rw [first, earliest]
    split
    · exact .inr ⟨off, rfl⟩
    · exact .inl rfl
  refine ⟨sound.update p chain' (sound.tabled.run runs) count others
    (fun q inside _ => List.mem_of_mem_erase inside) (fun inside => absurd inside off)
    (fun resumed => absurd (runs.idle.symm.trans resumed) (by simp))
    (fun expired => absurd (runs.state.symm.trans expired) (by simp))
    (fun q inside counts => ?_), runs⟩
  have relinked := others q (ne_of_mem_of_not_mem inside off)
  rw [relinked.timeout]
  have counts := relinked.hasTimeout.mp counts
  rcases runs.first with same | ⟨-, same⟩
  · rw [same]
    exact sound.first q (List.mem_of_mem_erase inside) counts
  · rw [same]
    exact earliest_le_timeout inside counts

end Processes

end Ghdl.Grt
