import Ghdl.Grt.DriverPending
import Ghdl.Grt.Preemption

/-!
# Waveform elements beyond the latest time

An element whose time does not fit is to be dropped, and still preempts. `Start_Assign` returns at once for such a first
element, so that no transaction is rejected; `Next_Assign` compares the wrapped time. The scan for the next delta cycle
reads the next transaction of each driver of the signal, also of an idle one.
-/

namespace Ghdl.Grt

open Fallible Linked Projected Function

/-- A signal assignment statement: `Ghdl_Signal_Start_Assign` for the first element of the waveform, and
`Ghdl_Signal_Next_Assign` or `Ghdl_Signal_Next_Assign_Error` for each of the others. -/
def signalAssign (design : Design) (now : Int) (proc : ProcId) (state : SignalState) (sign : SignalId)
    (assignment : Assignment) : Except GrtError SignalState := do
  let state ← ghdlSignalStartAssign design now proc state sign assignment.reject assignment.kind assignment.after
  assignment.rest.foldlM (fun state element => ghdlSignalNextAssign now proc state sign element.2 element.1) state

namespace Assignment

/-- An assignment that the standard allows, with delays that are times. -/
structure Allowed (assignment : Assignment) : Prop where
  /-- The pulse rejection limit is not negative. -/
  positive : 0 ≤ assignment.reject
  /-- The pulse rejection limit is at most the first delay. -/
  bounded : assignment.reject ≤ assignment.after
  /-- The delays increase. -/
  ascending : (assignment.after :: assignment.rest.map Prod.fst).Pairwise (· < ·)
  /-- The elements are value, null or error transactions. -/
  plain : ∀ kind ∈ assignment.kind :: assignment.rest.map Prod.snd, kind.isDirect = false
  /-- The delays are times. -/
  delays : ∀ delay ∈ assignment.after :: assignment.rest.map Prod.fst, delay ≤ StdTime.last

/-- The projected output waveform after the assignment, without the transactions beyond the latest time. -/
noncomputable def result (assignment : Assignment) (allowed : assignment.Allowed) (mode : ModeType) (now : Int)
    (waveform : DriverWaveform) : List Transaction :=
  (waveform.assign (Transaction.sameValue mode) (now + assignment.after - assignment.reject)
    ⟨assignment.kind, now + assignment.after⟩ (assignment.transactions now)
      (times_ascend allowed.ascending now)).pending.filter fun t => t.time ≤ StdTime.last

end Assignment

/-- Whether a driver has a transaction at this time, from the next transaction of each: there is no answer when an idle
driver is met first. -/
def dueIn (now : Int) : List (Option Transaction) → Option Bool
  | [] => some false
  | none :: _ => none
  | some t :: rest => if !t.kind.isDirect && t.time = now then some true else dueIn now rest

/-- The driver of the process for the signal, with its projected output waveform, among the drivers of the signal; and the
active chain. -/
structure Assignable (design : Design) (proc : ProcId) (state : SignalState) (sign : SignalId) (drv : Nat)
    (driver : Driver) (waveform : DriverWaveform) : Prop where
  /-- `Find_Driver`. -/
  found : state.findDriver proc sign = .ok drv
  isDriver : (state.drivers sign)[drv]? = some driver
  represents : driver.Represents waveform
  /-- The driver is not a direct one. -/
  current : waveform.current.kind.isDirect = false
  times : ∀ t ∈ waveform.current :: waveform.pending, 0 ≤ t.time ∧ t.time ≤ StdTime.last
  sound : ∀ d ∈ state.drivers sign, d.Sound
  /-- A signal with a link is on the active chain. -/
  chain : ∃ l, Segment state.link state.activeChain l none ∧ (state.link sign ≠ none → sign ∈ l) ∧
    l.length ≤ design.count

/-- The assignment leaves the waveform that the standard describes, without the transactions beyond the latest time. -/
def Preempts (design : Design) (now : Int) (proc : ProcId) (state : SignalState) (sign : SignalId) (drv : Nat)
    (waveform : DriverWaveform) (assignment : Assignment) (allowed : assignment.Allowed) : Prop :=
  ∃ state' driver', signalAssign design now proc state sign assignment = .ok state' ∧
    state'.drivers = update state.drivers sign ((state.drivers sign).set drv driver') ∧
    ∃ first pending, driver'.Holds first pending ∧ first.2 = waveform.current ∧
      pending.map Prod.snd = assignment.result allowed (design.decl sign).mode now waveform

/-- The scan of the drivers of a signal on the active chain meets no idle driver before one with a transaction at this time,
where the driver of the process has this next transaction. -/
def Scans (now : Int) (state : SignalState) (sign : SignalId) (drv : Nat) (reject : Int) (next : Option Transaction) : Prop :=
  0 < reject → state.link sign ≠ none → state.directActive sign = false →
    (dueIn now (((state.drivers sign).map fun d => d.pending.head?).set drv next)).isSome

/-- No element but the first is beyond the latest time; if the first one is, all the transactions of the rejection window
have its value; and if it is not, the scan meets no idle driver. -/
def OverflowMeets (design : Design) (now : Int) (state : SignalState) (sign : SignalId) (drv : Nat)
    (waveform : DriverWaveform) (assignment : Assignment) (allowed : assignment.Allowed) : Prop :=
  (∀ element ∈ assignment.rest, now + element.1 ≤ StdTime.last) ∧
  (StdTime.last < now + assignment.after → ∀ t ∈ waveform.pending, now + assignment.after - assignment.reject ≤ t.time →
    t.sameValue (design.decl sign).mode ⟨assignment.kind, now + assignment.after⟩ = true) ∧
  (now + assignment.after ≤ StdTime.last →
    Scans now state sign drv assignment.reject (assignment.result allowed (design.decl sign).mode now waveform).head?)

variable {now : Int} {design : Design} {proc : ProcId} {state state' : SignalState} {sign : SignalId} {drv : Nat}
  {driver driver' : Driver} {waveform : DriverWaveform} {assignment : Assignment}

theorem hasTransactionIn_eq {drivers : List Driver} (sound : ∀ d ∈ drivers, d.Sound) :
    SignalState.hasTransactionIn now drivers =
      match dueIn now (drivers.map fun d => d.pending.head?) with
      | some due => .ok due
      | none => .error .nullAccess := by
  induction drivers with
  | nil => rfl
  | cons d drivers ih =>
    obtain ⟨here, sound⟩ := List.forall_mem_cons.mp sound
    obtain ⟨first, pending, holds, -⟩ := here
    unfold SignalState.hasTransactionIn
    rw [TransHeap.read_some holds.firstCell, List.map_cons, holds.pending]
    cases pending with
    | nil => rfl
    | cons next pending =>
      obtain ⟨r, found⟩ := holds.chain.cell_of_mem (List.mem_cons_of_mem first List.mem_cons_self)
      show (d.heap.read (some next.1) >>= _) = _
      rw [TransHeap.read_some found]
      show (if _ then _ else _) = _
      simp only [List.map_cons, List.head?_cons, dueIn]
      by_cases due : (!next.2.kind.isDirect && decide (next.2.time = now)) = true
      · rw [if_pos due, if_pos due]
      · rw [if_neg due, if_neg due]
        exact ih sound

theorem findPrev_ok {link : SignalId → Option SignalPtr} {p : SignalPtr} {l : List SignalId} {fuel : Nat}
    (chain : Segment link p l none) (inside : sign ∈ l) (notFirst : p ≠ some sign) (fits : l.length ≤ fuel) :
    ∃ prev, SignalState.findPrev link sign fuel p = .ok prev := by
  induction l generalizing p fuel with
  | nil => exact absurd inside List.not_mem_nil
  | cons a l ih =>
    obtain ⟨fuel, rfl⟩ := fuel_succ fits
    obtain ⟨rfl, r, isNext, rest⟩ := Segment.cons_iff.mp chain
    unfold SignalState.findPrev
    rw [isNext]
    dsimp only
    by_cases here : r = some sign
    · exact ⟨a, if_pos here⟩
    · rw [if_neg here]
      have other : sign ≠ a := fun same => notFirst (by rw [same])
      exact ih rest ((List.mem_cons.mp inside).resolve_left other) here (by simpa using fits)

theorem removeActive_ok (chain : ∃ l, Segment state.link state.activeChain l none ∧ (state.link sign ≠ none → sign ∈ l) ∧
    l.length ≤ design.count) :
    ∃ state', state.removeActive design.count sign = .ok state' ∧ state'.drivers = state.drivers := by
  obtain ⟨l, path, inside, fits⟩ := chain
  unfold SignalState.removeActive
  cases linked : state.link sign with
  | none => exact ⟨state, rfl, rfl⟩
  | some next =>
    dsimp only
    by_cases first : state.activeChain = some sign
    · rw [if_pos first]
      exact ⟨_, rfl, rfl⟩
    · rw [if_neg first]
      obtain ⟨prev, found⟩ := findPrev_ok path (inside (by simp [linked])) first (Nat.le_succ_of_le fits)
      rw [found]
      exact ⟨_, rfl, rfl⟩

theorem findDriver_congr (same : (state'.drivers sign).map Driver.proc = (state.drivers sign).map Driver.proc) :
    state'.findDriver proc sign = state.findDriver proc sign := by
  have index : ∀ drivers : List Driver, drivers.findIdx? (·.proc = proc) =
      (drivers.map Driver.proc).findIdx? fun p => p = proc := fun drivers => by
    rw [List.findIdx?_map]
    rfl
  have empty : state'.drivers sign = [] ↔ state.drivers sign = [] := by
    rw [← List.map_eq_nil_iff (f := Driver.proc), same, List.map_eq_nil_iff]
  unfold SignalState.findDriver
  rw [index, same, ← index]
  simp only [empty]

theorem deleteOld_proc {assignTime : Int} (run : driver.deleteOld assignTime = .ok driver') : driver'.proc = driver.proc := by
  obtain ⟨lastCell, -, run⟩ := bind_ok.mp run
  split at run
  · obtain ⟨first, -, run⟩ := bind_ok.mp run
    obtain ⟨⟨last, next⟩, -, run⟩ := bind_ok.mp run
    cases next with
    | none => rw [← Except.ok.inj run]
    | some next =>
      obtain ⟨kept, -, run⟩ := bind_ok.mp run
      obtain ⟨freed, -, run⟩ := bind_ok.mp run
      rw [← Except.ok.inj run]
  · rw [← Except.ok.inj run]

theorem append_proc {trans : TransPtr} (run : driver.append trans = .ok driver') : driver'.proc = driver.proc := by
  obtain ⟨last, -, run⟩ := bind_ok.mp run
  rw [← Except.ok.inj run]

variable {reject after : Int} {kind : TransactionKind}

theorem startAssign_proc {mode : ModeType} {assignTime : Int}
    (run : driver.startAssign mode assignTime reject after kind = .ok driver') : driver'.proc = driver.proc := by
  obtain ⟨deleted, deletes, run⟩ := bind_ok.mp run
  obtain ⟨appended, appends, run⟩ := bind_ok.mp run
  have before : appended.proc = driver.proc := by
    have second := append_proc appends
    have first := deleteOld_proc deletes
    rw [second]
    exact first
  split at run
  · split at run
    · cases run
    · obtain ⟨window, -, run⟩ := bind_ok.mp run
      obtain ⟨heap, -, run⟩ := bind_ok.mp run
      rw [← Except.ok.inj run]
      exact before
  · split at run
    · cases run
    · rw [← Except.ok.inj run]
      exact before

theorem nextAssign_proc (run : driver.nextAssign now after kind = .ok driver') : driver'.proc = driver.proc := by
  obtain ⟨last, -, run⟩ := bind_ok.mp run
  split at run
  · cases run
  · have same := append_proc run
    exact same

variable {first : TransEntry} {pending : List TransEntry}

theorem nextAssign_error
    (holds : driver.Holds first pending) (earlier : ∀ e ∈ (first :: pending).getLast?, StdTime.add now after ≤ e.2.time) :
    driver.nextAssign now after kind = .error (.error "transactions not in ascending order") := by
  have holdsNew := holds.new ⟨kind, StdTime.add now after⟩
  obtain ⟨front, lastOld, split⟩ := holdsNew.atEnd
  have lastRead := TransHeap.read_some (holdsNew.lastCell split)
  have ordered : StdTime.add now after ≤ lastOld.time := earlier (driver.lastTrans, lastOld) (by rw [split]; simp)
  unfold Driver.nextAssign
  dsimp only
  rw [lastRead]
  exact if_pos ordered

theorem nextAssigns_error {rest : List (Int × TransactionKind)}
    (holds : driver.Holds first pending) (nonneg : 0 ≤ now) (latest : now ≤ StdTime.last)
    (last : ∀ e ∈ (first :: pending).getLast?, 0 ≤ e.2.time ∧ ∀ element ∈ rest, e.2.time < now + element.1)
    (ascending : (rest.map Prod.fst).Pairwise (· < ·))
    (delays : ∀ element ∈ rest, 0 ≤ element.1 ∧ element.1 ≤ StdTime.last)
    (beyond : ∃ element ∈ rest, StdTime.last < now + element.1) :
    rest.foldlM (fun driver element => driver.nextAssign now element.1 element.2) driver =
      .error (.error "transactions not in ascending order") := by
  induction rest generalizing driver pending with
  | nil =>
    obtain ⟨element, inside, -⟩ := beyond
    exact absurd inside List.not_mem_nil
  | cons element rest ih =>
    obtain ⟨delay, delays⟩ := List.forall_mem_cons.mp delays
    rw [List.map_cons, List.pairwise_cons] at ascending
    rw [List.foldlM_cons]
    by_cases wraps : StdTime.last < now + element.1
    · have wrapped := StdTime.add_wrapped latest delay.2 wraps
      have failed : driver.nextAssign now element.1 element.2 = .error (.error "transactions not in ascending order") :=
        nextAssign_error holds fun e isLast => (wrapped.trans_le (last e isLast).1).le
      rw [failed]
      rfl
    have sum : StdTime.add now element.1 = now + element.1 := StdTime.add_exact nonneg delay.1 (not_lt.mp wraps)
    have later : ∀ e ∈ (first :: pending).getLast?, e.2.time < StdTime.add now element.1 := fun e isLast => by
      rw [sum]
      exact (last e isLast).2 element List.mem_cons_self
    obtain ⟨next, run, holdsNext⟩ := Driver.nextAssign_spec element.2 holds later
    rw [run]
    rw [sum] at holdsNext
    refine ih holdsNext ?_ ascending.2 delays ?_
    · intro e isLast
      rw [← List.cons_append, List.getLast?_concat] at isLast
      rw [← Option.some.inj isLast]
      refine ⟨by dsimp only; omega, fun element' inside => ?_⟩
      have more := ascending.1 element'.1 (List.mem_map_of_mem inside)
      dsimp only
      omega
    · obtain ⟨element', inside, isBeyond⟩ := beyond
      rcases List.mem_cons.mp inside with rfl | inside
      · exact absurd isBeyond wraps
      · exact ⟨element', inside, isBeyond⟩

theorem insertFuture_drivers (state : SignalState) (sign : SignalId) : (state.insertFuture sign).drivers = state.drivers := by
  unfold SignalState.insertFuture
  split <;> rfl

theorem insertActive_drivers (state : SignalState) (sign : SignalId) : (state.insertActive sign).drivers = state.drivers := by
  unfold SignalState.insertActive
  split <;> rfl

/-- The driver of the process is replaced, and no other one. -/
def Replaces (state : SignalState) (sign : SignalId) (drv : Nat) (driver' : Driver) (state' : SignalState) : Prop :=
  state'.drivers = update state.drivers sign ((state.drivers sign).set drv driver')

theorem Replaces.refl (isDriver : (state.drivers sign)[drv]? = some driver) : Replaces state sign drv driver state := by
  obtain ⟨inside, isElement⟩ := List.getElem?_eq_some_iff.mp isDriver
  unfold Replaces
  rw [← isElement, List.set_getElem_self, Function.update_eq_self]

section

variable (replaces : Replaces state sign drv driver' state')
include replaces

theorem Replaces.at :
    state'.drivers sign = (state.drivers sign).set drv driver' := by
  rw [replaces, update_self]

theorem Replaces.isDriver (isDriver : (state.drivers sign)[drv]? = some driver) :
    (state'.drivers sign)[drv]? = some driver' := by
  rw [replaces.at, List.getElem?_set_self (List.getElem?_eq_some_iff.mp isDriver).1]

theorem Replaces.found (isDriver : (state.drivers sign)[drv]? = some driver)
    (same : driver'.proc = driver.proc) : state'.findDriver proc sign = state.findDriver proc sign := by
  apply findDriver_congr
  obtain ⟨inside, isElement⟩ := List.getElem?_eq_some_iff.mp isDriver
  rw [replaces.at, List.map_set, same, ← isElement]
  have inMap : drv < ((state.drivers sign).map Driver.proc).length := by rwa [List.length_map]
  have element : (state.drivers sign)[drv].proc = ((state.drivers sign).map Driver.proc)[drv] := by simp
  rw [element, List.set_getElem_self]

end

theorem Replaces.trans {driver'' : Driver} {state'' : SignalState} (first : Replaces state sign drv driver' state')
    (second : Replaces state' sign drv driver'' state'') : Replaces state sign drv driver'' state'' := by
  unfold Replaces
  rw [second, first, update_self, Function.update_idem, List.set_set]

theorem ghdlSignalNextAssign_eq (found : state.findDriver proc sign = .ok drv)
    (isDriver : (state.drivers sign)[drv]? = some driver) :
    ghdlSignalNextAssign now proc state sign kind after = (do
      let driver' ← driver.nextAssign now after kind
      Except.ok ((if 0 < after then state.insertFuture sign else state).setDriver sign drv driver')) := by
  have inserted : (if 0 < after then state.insertFuture sign else state).drivers = state.drivers := by
    split
    · exact insertFuture_drivers state sign
    · rfl
  unfold ghdlSignalNextAssign
  rw [found]
  dsimp only [bind, Except.bind]
  rw [inserted, isDriver]

theorem nextAssigns_lift {rest : List (Int × TransactionKind)} (found : state.findDriver proc sign = .ok drv)
    (isDriver : (state.drivers sign)[drv]? = some driver) :
    (∀ driver', rest.foldlM (fun driver element => driver.nextAssign now element.1 element.2) driver = .ok driver' →
      ∃ state', rest.foldlM (fun state element => ghdlSignalNextAssign now proc state sign element.2 element.1) state =
        .ok state' ∧ Replaces state sign drv driver' state') ∧
    (∀ e, rest.foldlM (fun driver element => driver.nextAssign now element.1 element.2) driver = .error e →
      rest.foldlM (fun state element => ghdlSignalNextAssign now proc state sign element.2 element.1) state = .error e) := by
  induction rest generalizing state driver with
  | nil =>
    refine ⟨fun driver' run => ⟨state, rfl, ?_⟩, fun e run => nomatch run⟩
    rw [← Except.ok.inj run]
    exact Replaces.refl isDriver
  | cons element rest ih =>
    rw [List.foldlM_cons, List.foldlM_cons, ghdlSignalNextAssign_eq found isDriver]
    cases step : driver.nextAssign now element.1 element.2 with
    | error e =>
      refine ⟨fun driver' run => (nomatch run), fun e' run => ?_⟩
      rw [← Except.error.inj run]
      rfl
    | ok next =>
      have replaces : Replaces state sign drv next
          ((if 0 < element.1 then state.insertFuture sign else state).setDriver sign drv next) := by
        unfold Replaces SignalState.setDriver
        dsimp only
        split
        · rw [insertFuture_drivers]
        · rfl
      have more := ih ((replaces.found isDriver (nextAssign_proc step)).trans found) (replaces.isDriver isDriver)
      constructor
      · intro driver' run
        obtain ⟨state', others, replaces'⟩ := more.1 driver' run
        exact ⟨state', others, replaces.trans replaces'⟩
      · exact more.2

theorem startAssign_late (allowed : assignment.Allowed) (latest : now ≤ StdTime.last)
    (late : StdTime.last < now + assignment.after) (found : state.findDriver proc sign = .ok drv) :
    ghdlSignalStartAssign design now proc state sign assignment.reject assignment.kind assignment.after =
      .ok (state.insertFuture sign) := by
  have wrapped := StdTime.add_wrapped latest (allowed.delays _ List.mem_cons_self) late
  unfold ghdlSignalStartAssign
  rw [found]
  show (if assignment.after < 0 then _ else _) = _
  rw [if_neg (by omega)]
  dsimp only
  rw [if_pos wrapped, if_neg (by omega)]

theorem checkLast_ok (holds : driver.Holds first pending) : driver.checkLast = .ok () := by
  obtain ⟨front, lastOld, split⟩ := holds.atEnd
  unfold Driver.checkLast
  rw [TransHeap.read_some (holds.lastCell split)]
  rfl

theorem startAssign_eq
    (found : state.findDriver proc sign = .ok drv) (isDriver : (state.drivers sign)[drv]? = some driver)
    (holds : driver.Holds first pending) (plain : ∀ e ∈ first :: pending, e.2.kind.isDirect = false) (delayed : 0 ≤ after)
    (sum : StdTime.add now after = now + after) (nonneg : 0 ≤ now)
    (run : driver.startAssign (design.decl sign).mode (now + after) reject after kind = .ok driver')
    (ends : driver'.checkLast = .ok ()) {next : SignalState}
    (isNext : (if after = 0 then state.insertActive sign else state.insertFuture sign).setDriver sign drv driver' = next) :
    ghdlSignalStartAssign design now proc state sign reject kind after =
      (if 0 < reject ∧ next.link sign ≠ none then do
        let active ← next.hasTransactionInNextDelta now sign
        if active then .ok next else next.removeActive design.count sign
      else .ok next) := by
  have inserted : (if after = 0 then state.insertActive sign else state.insertFuture sign).drivers = state.drivers := by
    split
    · exact insertActive_drivers state sign
    · exact insertFuture_drivers state sign
  unfold ghdlSignalStartAssign
  rw [found]
  show (if after < 0 then _ else _) = _
  rw [if_neg (not_lt.mpr delayed)]
  dsimp only
  generalize (if after = 0 then state.insertActive sign else state.insertFuture sign) = put at inserted isNext
  rw [sum, if_neg (by omega), inserted, isDriver]
  dsimp only
  obtain ⟨front, lastOld, split⟩ := holds.atEnd
  have lastPlain : lastOld.kind.isDirect = false := plain (driver.lastTrans, lastOld) (by rw [split]; simp)
  rw [TransHeap.read_some (holds.lastCell split)]
  show (if lastOld.kind.isDirect = true then _ else _) = _
  rw [lastPlain, if_neg Bool.false_ne_true, run]
  show (if _ then _ else _) = _
  rw [ends, isNext]
  by_cases rejects : 0 < reject ∧ next.link sign ≠ none
  · rw [if_pos rejects, if_pos rejects]
    cases next.hasTransactionInNextDelta now sign with
    | error e => rfl
    | ok active =>
      cases active with
      | true => rfl
      | false =>
        show (next.removeActive design.count sign >>= fun s => Except.ok s) = _
        cases next.removeActive design.count sign with
        | error e | ok s => rfl
  · rw [if_neg rejects, if_neg rejects]
    rfl

theorem insertFuture_chain (state : SignalState) (sign : SignalId) :
    (state.insertFuture sign).link = state.link ∧ (state.insertFuture sign).activeChain = state.activeChain ∧
      (state.insertFuture sign).directActive = state.directActive := by
  unfold SignalState.insertFuture
  split <;> exact ⟨rfl, rfl, rfl⟩

/-- The first element is put on the driver of the process, unless the scan reads the next transaction of an idle driver. -/
theorem startAssign_scan
    (assignable : Assignable design proc state sign drv driver waveform) (holds : driver.Holds first pending)
    (plain : ∀ e ∈ first :: pending, e.2.kind.isDirect = false) (positive : 0 ≤ reject) (bounded : reject ≤ after)
    (sum : StdTime.add now after = now + after) (nonneg : 0 ≤ now)
    (run : driver.startAssign (design.decl sign).mode (now + after) reject after kind = .ok driver') (sound : driver'.Sound) :
    (Scans now state sign drv reject driver'.pending.head? →
      ∃ state', ghdlSignalStartAssign design now proc state sign reject kind after = .ok state' ∧
        Replaces state sign drv driver' state') ∧ (¬ Scans now state sign drv reject driver'.pending.head? →
      ghdlSignalStartAssign design now proc state sign reject kind after = .error .nullAccess) := by
  have ends : driver'.checkLast = .ok () := by
    obtain ⟨first', pending', holds', -⟩ := sound
    exact checkLast_ok holds'
  rw [startAssign_eq assignable.found assignable.isDriver holds plain (by omega) sum nonneg run ends rfl]
  by_cases rejects : 0 < reject
  · rw [if_neg (show after ≠ 0 by omega)]
    obtain ⟨sameLink, sameChain, sameActive⟩ := insertFuture_chain state sign
    have replaces : Replaces state sign drv driver' ((state.insertFuture sign).setDriver sign drv driver') := by
      unfold Replaces SignalState.setDriver
      rw [insertFuture_drivers]
    have drivers := replaces.at
    have link : ((state.insertFuture sign).setDriver sign drv driver').link = state.link := sameLink
    have chain : ((state.insertFuture sign).setDriver sign drv driver').activeChain = state.activeChain := sameChain
    have active : ((state.insertFuture sign).setDriver sign drv driver').directActive = state.directActive := sameActive
    generalize (state.insertFuture sign).setDriver sign drv driver' = next at replaces drivers link chain active
    have allSound : ∀ d ∈ next.drivers sign, d.Sound := by
      intro d inside
      rw [drivers] at inside
      rcases List.mem_or_eq_of_mem_set inside with old | rfl
      · exact assignable.sound d old
      · exact sound
    have heads : (next.drivers sign).map (fun d => d.pending.head?) =
        ((state.drivers sign).map fun d => d.pending.head?).set drv driver'.pending.head? := by
      rw [drivers, List.map_set]
    by_cases linked : state.link sign = none
    · have scans : Scans now state sign drv reject driver'.pending.head? := fun _ isLinked => absurd linked isLinked
      rw [if_neg (by rw [link]; exact fun both => both.2 linked)]
      exact ⟨fun _ => ⟨next, rfl, replaces⟩, fun fails => absurd scans fails⟩
    rw [if_pos ⟨rejects, by rw [link]; exact linked⟩]
    unfold SignalState.hasTransactionInNextDelta
    rw [active]
    cases isActive : state.directActive sign with
    | true =>
      have scans : Scans now state sign drv reject driver'.pending.head? := fun _ _ notActive => by
        rw [isActive] at notActive
        cases notActive
      exact ⟨fun _ => ⟨next, rfl, replaces⟩, fun fails => absurd scans fails⟩
    | false =>
      rw [if_neg Bool.false_ne_true, hasTransactionIn_eq allSound, heads]
      cases isDue : dueIn now (((state.drivers sign).map fun d => d.pending.head?).set drv driver'.pending.head?) with
      | none =>
        refine ⟨fun scans => ?_, fun _ => rfl⟩
        have found := scans rejects linked isActive
        rw [isDue] at found
        cases found
      | some due =>
        refine ⟨fun _ => ?_, fun fails => absurd (fun _ _ _ => by rw [isDue]; rfl) fails⟩
        cases due with
        | true => exact ⟨next, rfl, replaces⟩
        | false =>
          have onChain := assignable.chain
          rw [← link, ← chain] at onChain
          obtain ⟨state', removed, same⟩ := removeActive_ok onChain
          refine ⟨state', removed, ?_⟩
          unfold Replaces
          rw [same]
          exact replaces
  · have scans : Scans now state sign drv reject driver'.pending.head? := fun positive => absurd positive rejects
    rw [if_neg fun both => rejects both.1]
    refine ⟨fun _ => ⟨_, rfl, ?_⟩, fun fails => absurd scans fails⟩
    unfold Replaces SignalState.setDriver
    dsimp only
    split
    · rw [insertActive_drivers]
    · rw [insertFuture_drivers]

variable (now) in
theorem result_eq (allowed : assignment.Allowed) (mode : ModeType) (times : ∀ t ∈ waveform.pending, t.time ≤ StdTime.last) :
    assignment.result allowed mode now waveform =
      (waveform.pending.filter fun t => t.time < now + assignment.after).filter
          (fun t => t.time < now + assignment.after - assignment.reject) ++
        ((waveform.pending.filter fun t => t.time < now + assignment.after).filter
          fun t => now + assignment.after - assignment.reject ≤ t.time).rtakeWhile
            (fun t => t.sameValue mode ⟨assignment.kind, now + assignment.after⟩) ++
          ((⟨assignment.kind, now + assignment.after⟩ : Transaction) :: assignment.transactions now).filter
            fun t => t.time ≤ StdTime.last := by
  have fits : ∀ l : List Transaction, (∀ t ∈ l, t ∈ waveform.pending) → l.filter (fun t => t.time ≤ StdTime.last) = l :=
    fun l old => List.filter_eq_self.mpr fun t inside => decide_eq_true (times t (old t inside))
  unfold Assignment.result Waveform.assign
  dsimp only
  rw [survivors_eq (Transaction.sameValue_symm mode) (Transaction.sameValue_trans mode) _ _ (waveform.ascending.filter _),
    List.filter_append, List.filter_append, fits, fits]
  · intro t inside
    have inWindow := (List.rtakeWhile_suffix _ _).subset inside
    exact List.mem_of_mem_filter (List.mem_of_mem_filter inWindow)
  · intro t inside
    exact List.mem_of_mem_filter (List.mem_of_mem_filter inside)

theorem kept_sublist {old : List TransEntry} (mode : ModeType) (kind : TransactionKind) (limit : Int)
    (ascending : Driver.Ascending old) : (Driver.kept mode kind limit old).Sublist old := by
  have parts := ascending.split limit
  unfold Driver.kept
  conv_rhs => rw [parts]
  exact (List.Sublist.refl _).append (List.rtakeWhile_suffix _ _).sublist

theorem result_late (allowed : assignment.Allowed) (mode : ModeType) (times : ∀ t ∈ waveform.pending, t.time ≤ StdTime.last)
    (late : StdTime.last < now + assignment.after) : assignment.result allowed mode now waveform = waveform.pending ↔
      ∀ t ∈ waveform.pending, now + assignment.after - assignment.reject ≤ t.time →
        t.sameValue mode ⟨assignment.kind, now + assignment.after⟩ = true := by
  have earlier : (waveform.pending.filter fun t => t.time < now + assignment.after) = waveform.pending :=
    List.filter_eq_self.mpr fun t inside => decide_eq_true ((times t inside).trans_lt late)
  have beyond : (((⟨assignment.kind, now + assignment.after⟩ : Transaction) :: assignment.transactions now).filter
      fun t => t.time ≤ StdTime.last) = [] := by
    have ascending := Assignment.times_ascend allowed.ascending now
    rw [List.filter_eq_nil_iff]
    intro t inside
    have isLate : StdTime.last < t.time := by
      rcases List.mem_cons.mp inside with rfl | inside
      · exact late
      · exact late.trans ((List.pairwise_cons.mp ascending).1 t inside)
    exact fun fits => absurd (of_decide_eq_true fits) (not_le.mpr isLate)
  have parts : waveform.pending =
      waveform.pending.filter (fun t => t.time < now + assignment.after - assignment.reject) ++
        waveform.pending.filter fun t => now + assignment.after - assignment.reject ≤ t.time := by
    have entries : Driver.Ascending (waveform.pending.map fun t => ((0 : TransPtr), t)) := by
      unfold Driver.Ascending
      rw [List.pairwise_map]
      exact waveform.ascending
    have parts := congrArg (List.map Prod.snd) (entries.split (now + assignment.after - assignment.reject))
    simpa [List.filter_map, Function.comp_def] using parts
  rw [result_eq now allowed mode times, earlier, beyond, List.append_nil]
  conv_lhs => rhs; rw [parts]
  rw [List.append_cancel_left_eq, List.rtakeWhile_eq_self_iff]
  simp only [List.mem_filter, decide_eq_true_eq, and_imp]

theorem Assignment.Allowed.rest_delays (allowed : assignment.Allowed) :
    ∀ element ∈ assignment.rest, 0 ≤ element.1 ∧ assignment.after < element.1 ∧ element.1 ≤ StdTime.last := by
  intro element inside
  have later := (List.pairwise_cons.mp allowed.ascending).1 element.1 (List.mem_map_of_mem inside)
  have isTime := allowed.delays element.1 (List.mem_cons_of_mem _ (List.mem_map_of_mem inside))
  have positive := allowed.positive
  have bounded := allowed.bounded
  omega

theorem last_time (current : first.2 = waveform.current) (contents : pending.map Prod.snd = waveform.pending)
    (times : ∀ t ∈ waveform.current :: waveform.pending, 0 ≤ t.time ∧ t.time ≤ StdTime.last) :
    ∀ e ∈ first :: pending, 0 ≤ e.2.time ∧ e.2.time ≤ StdTime.last := by
  intro e inside
  apply times
  rw [← current, ← contents]
  rcases List.mem_cons.mp inside with rfl | inside
  · exact List.mem_cons_self
  · exact List.mem_cons_of_mem _ (List.mem_map_of_mem inside)

theorem signalAssign_late (assignable : Assignable design proc state sign drv driver waveform) (allowed : assignment.Allowed)
    (nonneg : 0 ≤ now) (latest : now ≤ StdTime.last) (late : StdTime.last < now + assignment.after) :
    Preempts design now proc state sign drv waveform assignment allowed ↔
      OverflowMeets design now state sign drv waveform assignment allowed := by
  obtain ⟨first, pending, holds, current, contents⟩ := assignable.represents.1
  have delays := allowed.rest_delays
  have times := last_time current contents assignable.times
  have oldTimes : ∀ t ∈ waveform.pending, t.time ≤ StdTime.last := fun t inside =>
    (assignable.times t (List.mem_cons_of_mem _ inside)).2
  have started : ghdlSignalStartAssign design now proc state sign assignment.reject assignment.kind
      assignment.after = .ok (state.insertFuture sign) :=
    startAssign_late allowed latest late assignable.found
  cases isRest : assignment.rest with
  | nil =>
    have run : signalAssign design now proc state sign assignment = .ok (state.insertFuture sign) := by
      unfold signalAssign
      rw [started, isRest]
      rfl
    have same : (state.insertFuture sign).drivers = state.drivers := insertFuture_drivers state sign
    unfold OverflowMeets
    rw [isRest, ← result_late allowed _ oldTimes late]
    constructor
    · intro ⟨state', driver', run', replaces, first', pending', holds', _, contents'⟩
      obtain rfl : state.insertFuture sign = state' := Except.ok.inj (run.symm.trans run')
      have isNew := Replaces.isDriver replaces assignable.isDriver
      rw [same, assignable.isDriver] at isNew
      obtain rfl := Option.some.inj isNew
      refine ⟨by simp, fun _ => ?_, fun fits => absurd fits (not_le.mpr late)⟩
      rw [← contents', ← contents, ← holds.pending, ← holds'.pending]
    · intro ⟨_, isResult, _⟩
      refine ⟨_, driver, run, ?_, first, pending, holds, current, contents.trans (isResult late).symm⟩
      rw [same]
      exact Replaces.refl assignable.isDriver
  | cons element rest =>
    have inside : element ∈ assignment.rest := by
      rw [isRest]
      exact List.mem_cons_self
    have beyond : StdTime.last < now + element.1 := by
      have more := (delays element inside).2.1
      omega
    have failed : signalAssign design now proc state sign assignment = .error (.error "transactions not in ascending order") := by
      have found : (state.insertFuture sign).findDriver proc sign = .ok drv := by
        rw [← assignable.found]
        exact findDriver_congr (by rw [insertFuture_drivers])
      have isDriver : ((state.insertFuture sign).drivers sign)[drv]? = some driver := by
        rw [insertFuture_drivers]
        exact assignable.isDriver
      unfold signalAssign
      rw [started]
      refine (nextAssigns_lift found isDriver).2 _ (nextAssigns_error holds nonneg latest ?_
        (List.pairwise_cons.mp allowed.ascending).2 (fun e inRest => ⟨(delays e inRest).1, (delays e inRest).2.2⟩)
        ⟨element, inside, beyond⟩)
      intro e isLast
      have isTime := times e (List.mem_of_getLast? isLast)
      refine ⟨isTime.1, fun e' inRest => ?_⟩
      have more := (delays e' inRest).2.1
      omega
    constructor
    · intro ⟨state', driver', run, _⟩
      rw [failed] at run
      cases run
    · intro meets
      have fits := meets.1 element inside
      omega

theorem signalAssign_fits (assignable : Assignable design proc state sign drv driver waveform) (allowed : assignment.Allowed)
    (nonneg : 0 ≤ now) (latest : now ≤ StdTime.last) (fits : now + assignment.after ≤ StdTime.last) :
    Preempts design now proc state sign drv waveform assignment allowed ↔
      OverflowMeets design now state sign drv waveform assignment allowed := by
  obtain ⟨⟨first, pending, holds, current, contents⟩, plainPending⟩ := assignable.represents
  have delays := allowed.rest_delays
  have positive := allowed.positive
  have bounded := allowed.bounded
  have oldTimes : ∀ t ∈ waveform.pending, t.time ≤ StdTime.last := fun t inside =>
    (assignable.times t (List.mem_cons_of_mem _ inside)).2
  have ascending : Driver.Ascending pending := by
    have ascending := waveform.ascending
    rw [← contents, List.pairwise_map] at ascending
    exact ascending
  have plain : ∀ e ∈ first :: pending, e.2.kind.isDirect = false := by
    intro e inside
    rcases List.mem_cons.mp inside with rfl | inside
    · rw [current]
      exact assignable.current
    · exact plainPending e.2 (contents ▸ List.mem_map_of_mem inside)
  have sum : StdTime.add now assignment.after = now + assignment.after := StdTime.add_exact nonneg (by omega) fits
  have difference : StdTime.sub (now + assignment.after) assignment.reject = now + assignment.after - assignment.reject :=
    StdTime.sub_exact positive (by omega) fits
  obtain ⟨started, resultStart, holdsStart⟩ :=
    Driver.startAssign_spec (design.decl sign).mode assignment.kind holds ascending positive bounded difference
  have isKept := kept_sublist (design.decl sign).mode assignment.kind (now + assignment.after - assignment.reject)
    (ascending.filter fun e => decide (e.2.time < now + assignment.after))
  have before : ∀ e ∈ Driver.kept (design.decl sign).mode assignment.kind (now + assignment.after - assignment.reject)
      (pending.filter fun e => e.2.time < now + assignment.after), e.2.time < now + assignment.after := fun e inside =>
    of_decide_eq_true (List.mem_filter.mp (isKept.subset inside)).2
  have sameOld : (pending.filter fun e => e.2.time < now + assignment.after).map Prod.snd =
      waveform.pending.filter fun t => t.time < now + assignment.after := by
    rw [← contents, List.filter_map]
    rfl
  have closed := Driver.kept_map (design.decl sign).mode assignment.kind (now + assignment.after)
    (now + assignment.after - assignment.reject) (pending.filter fun e => e.2.time < now + assignment.after)
  rw [sameOld] at closed
  have isResult := result_eq now allowed (design.decl sign).mode oldTimes
  rw [← closed, List.filter_cons, if_pos (by simpa using fits)] at isResult
  generalize Driver.kept (design.decl sign).mode assignment.kind (now + assignment.after - assignment.reject)
    (pending.filter fun e => e.2.time < now + assignment.after) = old at holdsStart isKept before closed isResult
  have sound : started.Sound := by
    refine ⟨first, _, holdsStart, List.pairwise_append.mpr ⟨(ascending.filter _).sublist isKept, List.pairwise_singleton _ _, ?_⟩⟩
    intro e inside e' isNew
    rw [List.mem_singleton.mp isNew]
    exact before e inside
  have head : started.pending.head? = (assignment.result allowed (design.decl sign).mode now waveform).head? := by
    rw [holdsStart.pending, isResult, List.map_append, List.head?_append, List.head?_append]
    rfl
  obtain ⟨scanned, idle⟩ := startAssign_scan assignable holds plain positive bounded sum nonneg resultStart sound
  rw [head] at scanned idle
  by_cases scans : Scans now state sign drv assignment.reject
      (assignment.result allowed (design.decl sign).mode now waveform).head?
  · obtain ⟨state₁, run, replaces⟩ := scanned scans
    have found : state₁.findDriver proc sign = .ok drv :=
      (replaces.found assignable.isDriver (startAssign_proc resultStart)).trans assignable.found
    have isDriver := replaces.isDriver assignable.isDriver
    by_cases all : ∀ element ∈ assignment.rest, now + element.1 ≤ StdTime.last
    · refine iff_of_true ?_ ⟨all, fun late => absurd fits (not_le.mpr late), fun _ => scans⟩
      obtain ⟨final, added, resultRest, holdsFinal, new⟩ :=
        Driver.nextAssigns_spec holdsStart nonneg rfl (by omega) allowed.ascending all
      obtain ⟨state', others, replaces'⟩ := (nextAssigns_lift found isDriver).1 final resultRest
      refine ⟨state', final, bind_ok.mpr ⟨state₁, run, others⟩, replaces.trans replaces', first, _, holdsFinal, current, ?_⟩
      have allFit : (assignment.transactions now).filter (fun t => t.time ≤ StdTime.last) = assignment.transactions now := by
        refine List.filter_eq_self.mpr fun t inside => ?_
        obtain ⟨element, inRest, rfl⟩ := List.mem_map.mp inside
        exact decide_eq_true (all element inRest)
      rw [isResult, List.map_append, List.map_cons, new, allFit]
      rfl
    have failed : signalAssign design now proc state sign assignment =
        .error (.error "transactions not in ascending order") := by
      unfold signalAssign
      rw [run]
      refine (nextAssigns_lift found isDriver).2 _ (nextAssigns_error holdsStart nonneg latest ?_
        (List.pairwise_cons.mp allowed.ascending).2 (fun e inRest => ⟨(delays e inRest).1, (delays e inRest).2.2⟩) ?_)
      · intro e isLast
        rw [← List.cons_append, List.getLast?_concat] at isLast
        rw [← Option.some.inj isLast]
        refine ⟨by dsimp only; omega, fun element inRest => ?_⟩
        have more := (delays element inRest).2.1
        dsimp only
        omega
      · obtain ⟨element, inRest, beyond⟩ := not_forall₂.mp all
        exact ⟨element, inRest, not_le.mp beyond⟩
    refine iff_of_false (fun ⟨state', driver', run', _⟩ => ?_) fun meets => all meets.1
    rw [failed] at run'
    cases run'
  · refine iff_of_false (fun ⟨state', driver', run', _⟩ => ?_) fun meets => scans (meets.2.2 fits)
    have failed : signalAssign design now proc state sign assignment = .error .nullAccess := by
      unfold signalAssign
      rw [idle scans]
      rfl
    rw [failed] at run'
    cases run'

/-- For a waveform with ascending delays, the elements beyond the latest time are dropped and the others preempt, and no
error is reported: this holds exactly under the condition. -/
theorem signalAssign_iff (assignable : Assignable design proc state sign drv driver waveform) (allowed : assignment.Allowed)
    (nonneg : 0 ≤ now) (latest : now ≤ StdTime.last) :
    Preempts design now proc state sign drv waveform assignment allowed ↔
      OverflowMeets design now state sign drv waveform assignment allowed := by
  by_cases fits : now + assignment.after ≤ StdTime.last
  · exact signalAssign_fits assignable allowed nonneg latest fits
  · exact signalAssign_late assignable allowed nonneg latest (not_le.mp fits)

/-- A design with bits as signals. -/
def bitDesign : Design where
  count := 1
  decl _ := { mode := .b1, modeSig := .modeSignal }
  net _ := .netOneDriver
  propagation := []
  resolved _ := ⟨⟨0, 0⟩, fun _ => [], 0⟩
  conversion _ := ⟨id, ⟨0, 0⟩, ⟨0, 0⟩⟩

/-- Each signal has a new driver of the first process. -/
def bitSignals : SignalState where
  values _ := { drivingValue := .b1 false, lastValue := .b1 false, value := .b1 false }
  link _ := none
  flink _ := none
  directActive _ := false
  drivers _ := [Driver.create 0 (.b1 false)]
  attrTrans _ := ⟨⟨.value (.b1 false), 0⟩, []⟩
  eventList _ := []
  updated _ := false

theorem bitSignals_assignable (sign : SignalId) :
    Assignable bitDesign 0 bitSignals sign 0 (Driver.create 0 (.b1 false)) ⟨⟨.value (.b1 false), 0⟩, [], .nil⟩ where
  found := rfl
  isDriver := rfl
  represents := ⟨⟨_, [], Driver.create_holds 0 (.b1 false), rfl, rfl⟩, by simp⟩
  current := rfl
  times := by simp [StdTime.last]
  sound := by
    intro d inside
    rw [List.mem_singleton.mp inside]
    exact Driver.create_sound 0 (.b1 false)
  chain := ⟨[], rfl, fun linked => absurd rfl linked, by decide⟩

theorem Assignment.Allowed.two {first second : Int} (positive : 0 ≤ first) (later : first < second)
    (isTime : second ≤ StdTime.last) (left right : ValueUnion) :
    Assignment.Allowed ⟨0, first, .value left, [(second, .value right)]⟩ where
  positive := Int.le_refl 0
  bounded := positive
  ascending := by simpa using later
  plain := by simp [TransactionKind.isDirect]
  delays := by
    simp only [List.map_cons, List.map_nil, List.mem_cons, List.not_mem_nil, or_false, forall_eq_or_imp, forall_eq]
    omega

/-- Two elements at 4 and 6, assigned at 3. -/
theorem two_elements_preempt : Preempts bitDesign 3 0 bitSignals 0 0 ⟨⟨.value (.b1 false), 0⟩, [], .nil⟩
      ⟨0, 1, .value (.b1 true), [(3, .value (.b1 false))]⟩ (.two (by decide) (by decide) (by decide) _ _) := by
  refine (signalAssign_iff (bitSignals_assignable 0) _ (by decide) (by decide)).mpr ⟨by decide, ?_, ?_⟩
  · intro late
    exact absurd late (by decide)
  · intro _ rejects
    exact absurd rejects (by decide)

/-- A second element beyond the latest time, assigned at 1: an error is reported. -/
theorem late_element_reported : Assignment.Allowed ⟨0, 1, .value (.b1 true), [(StdTime.last, .value (.b1 false))]⟩ ∧
      Assignable bitDesign 0 bitSignals 0 0 (Driver.create 0 (.b1 false)) ⟨⟨.value (.b1 false), 0⟩, [], .nil⟩ ∧
      signalAssign bitDesign 1 0 bitSignals 0 ⟨0, 1, .value (.b1 true), [(StdTime.last, .value (.b1 false))]⟩ =
        .error (.error "transactions not in ascending order") :=
  ⟨.two (by decide) (by decide) (by decide) _ _, bitSignals_assignable 0, rfl⟩

end Ghdl.Grt
