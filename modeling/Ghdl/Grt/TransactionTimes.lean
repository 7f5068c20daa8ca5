import Ghdl.Grt.ProcessRuns

/-!
# The times of transactions

A signal assignment drops a transaction whose time overflows, and the elements of a waveform ascend. So no
driver ever holds a transaction for a negative time; and if the delays of implicit signals do not overflow,
the time of the next cycle is not negative, whatever the processes do.
-/

namespace Ghdl.Grt

open Fallible Relation Function

/-- No cell of the heap is for a negative time. -/
def TransHeap.Nonnegative (heap : TransHeap) : Prop := ∀ p cell, heap.cell p = some cell → 0 ≤ cell.time

namespace TransHeap

variable {heap heap' : TransHeap}

theorem Nonnegative.read {p : Option TransPtr} {cell : TransactionCell} (nonnegative : heap.Nonnegative)
    (result : heap.read p = .ok cell) : 0 ≤ cell.time := by
  unfold TransHeap.read at result
  split at result
  · simp at result
  · next p =>
    split at result
    · simp at result
    · next held => exact nonnegative p cell (Except.ok.inj result ▸ held)

section

variable (nonnegative : heap.Nonnegative)
include nonnegative

theorem Nonnegative.write (p : TransPtr) {cell : TransactionCell}
    (positive : 0 ≤ cell.time) : (heap.write p cell).Nonnegative := by
  intro q other held
  have held : update heap.cell p (some cell) q = some other := held
  by_cases same : q = p
  · rw [same, update_self] at held
    exact Option.some.inj held ▸ positive
  · rw [update_of_ne same] at held
    exact nonnegative q other held

theorem Nonnegative.free (p : TransPtr) : (heap.free p).Nonnegative := by
  intro q other held
  have held : update heap.cell p none q = some other := held
  by_cases same : q = p
  · rw [same, update_self] at held
    exact absurd held (by simp)
  · rw [update_of_ne same] at held
    exact nonnegative q other held

theorem Nonnegative.new {trans : Transaction}
    (positive : 0 ≤ trans.time) : (heap.new trans).Nonnegative :=
  nonnegative.write heap.fresh positive

end

variable {fuel : Nat}

theorem Nonnegative.freeFrom {next : TransPtr} (nonnegative : heap.Nonnegative)
    (result : heap.freeFrom fuel next = .ok heap') : heap'.Nonnegative := by
  induction fuel generalizing heap next with
  | zero => simp [TransHeap.freeFrom] at result
  | succ fuel ih =>
    obtain ⟨cell, -, result⟩ := bind_ok.mp result
    split at result
    · exact Except.ok.inj result ▸ nonnegative.free next
    · exact ih (nonnegative.free next) result

theorem Nonnegative.freeThrough {stop d : Option TransPtr} (nonnegative : heap.Nonnegative)
    (result : freeThrough stop fuel heap d = .ok heap') : heap'.Nonnegative := by
  induction fuel generalizing heap d with
  | zero => simp [TransHeap.freeThrough] at result
  | succ fuel ih =>
    cases d with
    | none => simp [TransHeap.freeThrough] at result
    | some d =>
      obtain ⟨cell, -, result⟩ := bind_ok.mp result
      split at result
      · exact Except.ok.inj result ▸ nonnegative.free d
      · exact ih (nonnegative.free d) result

theorem Nonnegative.scanWindow {mode : ModeType} {kind : TransactionKind}
    {trans prev : TransPtr} {next : Option TransPtr} (nonnegative : heap.Nonnegative)
    (result : scanWindow mode trans kind fuel heap prev next = .ok heap') : heap'.Nonnegative := by
  induction fuel generalizing heap prev next with
  | zero => simp [TransHeap.scanWindow] at result
  | succ fuel ih =>
    unfold TransHeap.scanWindow at result
    split at result
    · exact Except.ok.inj result ▸ nonnegative
    · obtain ⟨cell, -, result⟩ := bind_ok.mp result
      split at result
      · obtain ⟨before, read, result⟩ := bind_ok.mp result
        obtain ⟨freed, free, result⟩ := bind_ok.mp result
        have positive := nonnegative.read read
        have cut : (heap.write prev { before with next := cell.next }).Nonnegative := nonnegative.write prev positive
        exact ih (cut.freeThrough free) result
      · exact ih nonnegative result

end TransHeap

/-- No transaction of the driver is for a negative time. -/
def Driver.Nonnegative (driver : Driver) : Prop := driver.heap.Nonnegative

namespace Driver

variable {driver driver' : Driver}

theorem Nonnegative.deleteOld {assignTime : Int} (nonnegative : driver.Nonnegative)
    (result : driver.deleteOld assignTime = .ok driver') : driver'.Nonnegative := by
  obtain ⟨last, -, result⟩ := bind_ok.mp result
  split at result
  · obtain ⟨first, -, result⟩ := bind_ok.mp result
    obtain ⟨⟨last, next⟩, -, result⟩ := bind_ok.mp result
    dsimp only at result
    split at result
    · exact Except.ok.inj result ▸ nonnegative
    · obtain ⟨kept, read, result⟩ := bind_ok.mp result
      obtain ⟨freed, free, result⟩ := bind_ok.mp result
      rw [← Except.ok.inj result]
      have positive := TransHeap.Nonnegative.read nonnegative read
      have cut : (driver.heap.write last { kept with next := none }).Nonnegative :=
        TransHeap.Nonnegative.write nonnegative last positive
      exact cut.freeFrom free
  · exact Except.ok.inj result ▸ nonnegative

theorem Nonnegative.append {trans : TransPtr} (nonnegative : driver.Nonnegative)
    (result : driver.append trans = .ok driver') : driver'.Nonnegative := by
  obtain ⟨last, read, result⟩ := bind_ok.mp result
  rw [← Except.ok.inj result]
  have positive := TransHeap.Nonnegative.read nonnegative read
  exact TransHeap.Nonnegative.write nonnegative _ positive

variable {kind : TransactionKind}

theorem Nonnegative.rejectOld {mode : ModeType} {trans : TransPtr} {limit : Int}
    (nonnegative : driver.Nonnegative) (result : driver.rejectOld mode trans kind limit = .ok driver') :
    driver'.Nonnegative := by
  obtain ⟨⟨prev, next⟩, -, result⟩ := bind_ok.mp result
  obtain ⟨heap, scanned, result⟩ := bind_ok.mp result
  rw [← Except.ok.inj result]
  exact TransHeap.Nonnegative.scanWindow nonnegative scanned

theorem Nonnegative.startAssign {mode : ModeType} {assignTime reject after : Int} (nonnegative : driver.Nonnegative) (positive : 0 ≤ assignTime)
    (result : driver.startAssign mode assignTime reject after kind = .ok driver') : driver'.Nonnegative := by
  have created : { driver with heap := driver.heap.new ⟨kind, 0⟩ }.Nonnegative :=
    TransHeap.Nonnegative.new nonnegative (le_refl 0)
  obtain ⟨deleted, delete, result⟩ := bind_ok.mp result
  have written : { deleted with
      heap := deleted.heap.write driver.heap.fresh ⟨⟨kind, assignTime⟩, none⟩ }.Nonnegative :=
    TransHeap.Nonnegative.write (created.deleteOld delete) _ positive
  obtain ⟨appended, append, result⟩ := bind_ok.mp result
  have appended := written.append append
  split at result
  · split at result
    · simp at result
    · exact appended.rejectOld result
  · split at result
    · simp at result
    · exact Except.ok.inj result ▸ appended

theorem Nonnegative.nextAssign {now after : Int} (nonnegative : driver.Nonnegative)
    (result : driver.nextAssign now after kind = .ok driver') : driver'.Nonnegative := by
  obtain ⟨last, read, result⟩ := bind_ok.mp result
  split at result
  · simp at result
  · next ascends =>
    by_cases fresh : driver.lastTrans = driver.heap.fresh
    · -- The new transaction is not after itself.
      rw [fresh] at read
      have held : (driver.heap.new ⟨kind, StdTime.add now after⟩).read (some driver.heap.fresh) =
          .ok ⟨⟨kind, StdTime.add now after⟩, none⟩ := by
        simp [TransHeap.read, TransHeap.new]
      have same := Except.ok.inj (held.symm.trans read)
      exact absurd (same ▸ le_refl _) ascends
    have before : driver.heap.read (some driver.lastTrans) = .ok last := by
      rw [← read]
      simp only [TransHeap.read, TransHeap.new, update_of_ne fresh]
    have positive : 0 ≤ StdTime.add now after := (nonnegative.read before).trans (le_of_lt (not_le.mp ascends))
    have created : { driver with
        heap := driver.heap.new ⟨kind, StdTime.add now after⟩ }.Nonnegative :=
      TransHeap.Nonnegative.new nonnegative positive
    exact created.append result

theorem Nonnegative.consume (nonnegative : driver.Nonnegative)
    (result : driver.consume = .ok (kind, driver')) : driver'.Nonnegative := by
  obtain ⟨first, -, result⟩ := bind_ok.mp result
  split at result
  · simp at result
  · obtain ⟨cell, -, result⟩ := bind_ok.mp result
    obtain ⟨-, rfl⟩ := Prod.mk.inj (Except.ok.inj result)
    exact TransHeap.Nonnegative.free nonnegative _

theorem Nonnegative.assignFirst {val : ValueUnion} (nonnegative : driver.Nonnegative)
    (result : driver.assignFirst val = .ok driver') : driver'.Nonnegative := by
  obtain ⟨first, read, result⟩ := bind_ok.mp result
  rw [← Except.ok.inj result]
  have positive := TransHeap.Nonnegative.read nonnegative read
  exact TransHeap.Nonnegative.write nonnegative _ positive

theorem Nonnegative.update {now : Int} (nonnegative : driver.Nonnegative)
    (updates : driver.Updates now driver') : driver'.Nonnegative := by
  obtain ⟨activity, result⟩ := updates
  obtain ⟨first, -, result⟩ := bind_ok.mp result
  split at result
  · obtain ⟨-, rfl⟩ := Prod.mk.inj (Except.ok.inj result)
    exact nonnegative
  · obtain ⟨cell, -, result⟩ := bind_ok.mp result
    split at result
    · obtain ⟨assigned, assign, result⟩ := bind_ok.mp result
      obtain ⟨-, rfl⟩ := Prod.mk.inj (Except.ok.inj result)
      exact nonnegative.assignFirst assign
    · split at result
      · obtain ⟨⟨kind, consumed⟩, consume, result⟩ := bind_ok.mp result
        obtain ⟨-, rfl⟩ := Prod.mk.inj (Except.ok.inj result)
        exact nonnegative.consume consume
      · obtain ⟨-, rfl⟩ := Prod.mk.inj (Except.ok.inj result)
        exact nonnegative

theorem Nonnegative.nextTrans {trans : Transaction} (nonnegative : driver.Nonnegative)
    (result : driver.nextTrans = .ok (some trans)) : 0 ≤ trans.time := by
  obtain ⟨first, -, result⟩ := bind_ok.mp result
  split at result
  · simp at result
  · obtain ⟨cell, read, result⟩ := bind_ok.mp result
    obtain rfl := Option.some.inj (Except.ok.inj result)
    exact TransHeap.Nonnegative.read nonnegative read

end Driver

theorem exists_of_forall₂ {α β : Type*} {r : α → β → Prop} {l : List α} {l' : List β} {b : β}
    (related : List.Forall₂ r l l') (inside : b ∈ l') : ∃ a ∈ l, r a b := by
  induction related with
  | nil => simp at inside
  | @cons a _ l _ first _ ih =>
    rcases List.mem_cons.mp inside with rfl | inside
    · exact ⟨a, List.mem_cons_self, first⟩
    · obtain ⟨c, member, second⟩ := ih inside
      exact ⟨c, List.mem_cons_of_mem a member, second⟩

/-- No transaction of a driver or of an implicit signal is for a negative time. -/
structure SignalState.Nonnegative (state : SignalState) : Prop where
  drivers : ∀ sig, ∀ driver ∈ state.drivers sig, driver.Nonnegative
  attrs : ∀ sig, ∀ trans ∈ (state.attrTrans sig).pending, 0 ≤ trans.time

namespace SignalState.Nonnegative

variable {state state' : SignalState}

section

variable (nonnegative : state.Nonnegative)
include nonnegative

theorem congr (drivers : state'.drivers = state.drivers)
    (attrs : state'.attrTrans = state.attrTrans) : state'.Nonnegative where
  drivers := drivers ▸ nonnegative.drivers
  attrs := attrs ▸ nonnegative.attrs

theorem setDrivers (sig : SignalId) {drivers : List Driver}
    (each : ∀ driver ∈ drivers, driver.Nonnegative) :
    { state with drivers := update state.drivers sig drivers }.Nonnegative := by
  refine ⟨fun other driver inside => ?_, nonnegative.attrs⟩
  have inside : driver ∈ update state.drivers sig drivers other := inside
  by_cases same : other = sig
  · rw [same, update_self] at inside
    exact each driver inside
  · rw [update_of_ne same] at inside
    exact nonnegative.drivers other driver inside

theorem setDriver (sign : SignalId) (drv : Nat) {driver : Driver}
    (positive : driver.Nonnegative) : (state.setDriver sign drv driver).Nonnegative := by
  refine nonnegative.setDrivers sign fun other inside => ?_
  rcases List.mem_or_eq_of_mem_set inside with old | new
  · exact nonnegative.drivers sign other old
  · exact new ▸ positive

theorem insertActive (sign : SignalId) : (state.insertActive sign).Nonnegative := by
  unfold SignalState.insertActive
  split
  · exact nonnegative.congr rfl rfl
  · exact nonnegative

theorem insertFuture (sign : SignalId) : (state.insertFuture sign).Nonnegative := by
  unfold SignalState.insertFuture
  split
  · exact nonnegative.congr rfl rfl
  · exact nonnegative

end

theorem removeActive {count : Nat} {sign : SignalId} (nonnegative : state.Nonnegative)
    (result : state.removeActive count sign = .ok state') : state'.Nonnegative := by
  unfold SignalState.removeActive at result
  split at result
  · exact Except.ok.inj result ▸ nonnegative
  · split at result
    · exact Except.ok.inj result ▸ nonnegative.congr rfl rfl
    · obtain ⟨prev, -, result⟩ := bind_ok.mp result
      exact Except.ok.inj result ▸ nonnegative.congr rfl rfl

variable {after : Int} {trans : TransactionKind}

theorem assignDirect {sign : SignalId} {drv : Nat} {driver : Driver} (nonnegative : state.Nonnegative) (positive : driver.Nonnegative)
    (result : state.assignDirect sign drv driver trans after = .ok state') : state'.Nonnegative := by
  unfold SignalState.assignDirect at result
  split at result
  · simp at result
  · split at result
    · exact Except.ok.inj result ▸ nonnegative.setDriver sign drv positive
    all_goals simp at result

variable {design : Design} {now : Int} {proc : ProcId} {sign : SignalId}

theorem startAssign {reject : Int} (nonnegative : state.Nonnegative)
    (result : ghdlSignalStartAssign design now proc state sign reject trans after = .ok state') :
    state'.Nonnegative := by
  obtain ⟨drv, -, result⟩ := bind_ok.mp result
  split at result
  · simp at result
  · have inserted : (if after = 0 then state.insertActive sign
        else state.insertFuture sign).Nonnegative := by
      split
      · exact nonnegative.insertActive sign
      · exact nonnegative.insertFuture sign
    dsimp only at result
    generalize (if after = 0 then state.insertActive sign else state.insertFuture sign) = next at inserted result
    split at result
    · exact Except.ok.inj result ▸ inserted
    · next future =>
      split at result
      · simp at result
      · next driver held =>
        have before := inserted.drivers sign driver (List.mem_of_getElem? held)
        obtain ⟨last, -, result⟩ := bind_ok.mp result
        split at result
        · exact inserted.assignDirect before result
        · obtain ⟨driver', started, result⟩ := bind_ok.mp result
          have replaced := inserted.setDriver sign drv (before.startAssign (not_lt.mp future) started)
          split at result
          · obtain ⟨active, -, result⟩ := bind_ok.mp result
            split at result
            · obtain ⟨final, kept, result⟩ := bind_ok.mp result
              obtain rfl := Except.ok.inj kept
              obtain ⟨-, -, result⟩ := bind_ok.mp result
              exact Except.ok.inj result ▸ replaced
            · obtain ⟨final, removed, result⟩ := bind_ok.mp result
              obtain ⟨-, -, result⟩ := bind_ok.mp result
              exact Except.ok.inj result ▸ replaced.removeActive removed
          · obtain ⟨-, -, result⟩ := bind_ok.mp result
            exact Except.ok.inj result ▸ replaced

theorem nextAssign (nonnegative : state.Nonnegative)
    (result : ghdlSignalNextAssign now proc state sign trans after = .ok state') : state'.Nonnegative := by
  obtain ⟨drv, -, result⟩ := bind_ok.mp result
  have inserted : (if 0 < after then state.insertFuture sign else state).Nonnegative := by
    split
    · exact nonnegative.insertFuture sign
    · exact nonnegative
  dsimp only at result
  generalize (if 0 < after then state.insertFuture sign else state) = next at inserted result
  split at result
  · simp at result
  · next driver held =>
    have before := inserted.drivers sign driver (List.mem_of_getElem? held)
    obtain ⟨driver', assigned, result⟩ := bind_ok.mp result
    exact Except.ok.inj result ▸ inserted.setDriver sign drv (before.nextAssign assigned)

theorem simpleAssign {val : ValueUnion} (nonnegative : state.Nonnegative)
    (result : ghdlSignalSimpleAssign design now proc state sign val = .ok state') : state'.Nonnegative := by
  simp only [ghdlSignalSimpleAssign] at result
  split at result
  · split at result
    · obtain ⟨idle, failed, -⟩ := bind_ok.mp result
      simp at failed
    · obtain ⟨first, -, result⟩ := bind_ok.mp result
      obtain ⟨idle, -, result⟩ := bind_ok.mp result
      split at result
      · exact Except.ok.inj result ▸ nonnegative
      · exact nonnegative.startAssign result
  · obtain ⟨idle, -, result⟩ := bind_ok.mp result
    split at result
    · exact Except.ok.inj result ▸ nonnegative
    · exact nonnegative.startAssign result

theorem startAssignNull {reject : Int} (nonnegative : state.Nonnegative)
    (result : ghdlSignalStartAssignNull design now proc state sign reject after = .ok state') : state'.Nonnegative := by
  unfold ghdlSignalStartAssignNull at result
  split at result
  · simp at result
  · exact nonnegative.startAssign result

theorem disconnect (nonnegative : state.Nonnegative)
    (result : ghdlSignalDisconnect design now proc state sign = .ok state') : state'.Nonnegative := by
  unfold ghdlSignalDisconnect at result
  split at result
  · simp at result
  · split at result
    · simp at result
    · exact nonnegative.startAssign result

/-- A process only assigns signals. -/
theorem processCall {kernel : Kernel} {p : ProcId} {call : ProcessCall} {signals : SignalState}
    (nonnegative : kernel.signals.Nonnegative)
    (result : kernel.processCall design p call = .ok signals) : signals.Nonnegative := by
  cases call with
  | assign sign reject kind after rest =>
    simp only [Kernel.processCall] at result
    split at result
    · obtain ⟨first, started, result⟩ := bind_ok.mp result
      exact foldlM_invariant result (nonnegative.startAssignNull started) fun _ _ _ _ kept next =>
        kept.nextAssign next
    · obtain ⟨first, started, result⟩ := bind_ok.mp result
      exact foldlM_invariant result (nonnegative.startAssign started) fun _ _ _ _ kept next =>
        kept.nextAssign next
  | simpleAssign sign val => exact nonnegative.simpleAssign result
  | disconnect sign => exact nonnegative.disconnect result
  | directAssign sign val active =>
    have assigned : (Kernel.assignVariable kernel.signals p sign val).Nonnegative := by
      refine nonnegative.setDrivers sign fun driver inside => ?_
      obtain ⟨old, member, rfl⟩ := List.mem_map.mp inside
      split
      all_goals exact nonnegative.drivers sign old member
    rw [← Except.ok.inj result]
    split
    · exact (assigned.insertActive sign).congr rfl rfl
    · exact assigned

theorem updateSignals (nonnegative : state.Nonnegative) (delays : ∀ sig, 0 ≤ StdTime.add now (design.decl sig).time)
    (result : updateSignals design now state = .ok state') : state'.Nonnegative := by
  have changes := updateSignals_changes result
  clear result
  induction changes with
  | refl => exact nonnegative
  | tail _ change ih =>
    cases change with
    | edit edit =>
      cases edit with
      | values | event => exact ih.congr rfl rfl
      | drivers sig drivers updated =>
        refine ih.setDrivers sig fun driver inside => ?_
        obtain ⟨old, member, same | updates⟩ := exists_of_forall₂ updated inside
        · exact same ▸ ih.drivers sig old member
        · exact (ih.drivers sig old member).update updates
      | attr sig trans scheduled =>
        refine ⟨ih.drivers, fun other t inside => ?_⟩
        simp only [SignalState.setAttrTrans] at inside
        by_cases same : other = sig
        · rw [same, update_self] at inside
          rcases scheduled t inside with projected | ⟨old, member, time⟩
          · exact projected ▸ delays sig
          · exact time ▸ ih.attrs sig old member
        · rw [update_of_ne same] at inside
          exact ih.attrs other t inside
      | active sig => exact ih.insertActive sig
      | implicit sig =>
        unfold SignalState.insertImplicit
        split
        · exact ih.congr rfl rfl
        · exact ih
    | links | flags => exact ih.congr rfl rfl
    | @driver _ sig driver driver' drivers held consumed =>
      have positive := ih.drivers sig
      rw [held] at positive
      refine ih.setDrivers sig fun other inside => ?_
      rcases List.mem_cons.mp inside with rfl | inside
      · rcases consumed with ⟨kind, consumed⟩ | assigned
        · exact (positive driver List.mem_cons_self).consume consumed
        · exact (positive driver List.mem_cons_self).assignFirst assigned
      · exact positive other (List.mem_cons_of_mem _ inside)

end SignalState.Nonnegative

section NextTime

variable {design : Design} {now res res' : Int} {state state' : SignalState} {sig : SignalId}

theorem considerTime_nonnegative {time : Int} (positive : 0 ≤ res) (after : 0 ≤ time) :
    0 ≤ (considerTime design state res sig time).2 := by
  unfold considerTime
  split
  · exact positive
  · split
    · exact after
    · exact positive

theorem checkTransaction_nonnegative {trans : Option Transaction} (positive : 0 ≤ res) (after : ∀ t ∈ trans, 0 ≤ t.time)
    (result : checkTransaction design now state res sig trans = .ok (state', res')) : 0 ≤ res' := by
  unfold checkTransaction at result
  split at result
  · simp only [Except.ok.injEq, Prod.mk.injEq] at result
    exact result.2 ▸ positive
  · split at result
    · simp only [Except.ok.injEq, Prod.mk.injEq] at result
      exact result.2 ▸ positive
    · split at result
      · simp at result
      · next t _ _ =>
        have later := @considerTime_nonnegative design res state sig t.time positive (after t rfl)
        rwa [Except.ok.inj result] at later

theorem checkDrivers_nonnegative {drivers : List Driver} (positive : 0 ≤ res)
    (each : ∀ driver ∈ drivers, driver.Nonnegative)
    (result : checkDrivers design now sig drivers state res = .ok (state', res')) : 0 ≤ res' := by
  induction drivers generalizing state res with
  | nil =>
    simp only [checkDrivers, Except.ok.injEq, Prod.mk.injEq] at result
    exact result.2 ▸ positive
  | cons driver drivers ih =>
    simp only [checkDrivers, bind_ok] at result
    obtain ⟨trans, read, ⟨middle, time⟩, checked, result⟩ := result
    have after : ∀ t ∈ trans, 0 ≤ t.time := by
      rintro t rfl
      exact (each driver List.mem_cons_self).nextTrans read
    exact ih (checkTransaction_nonnegative positive after checked)
      (fun other inside => each other (List.mem_cons_of_mem driver inside)) result

theorem checkSignal_nonnegative (positive : 0 ≤ res) (nonnegative : state.Nonnegative)
    (result : checkSignal design now state res sig = .ok (state', res')) : 0 ≤ res' := by
  unfold checkSignal at result
  split at result
  · exact checkDrivers_nonnegative positive (nonnegative.drivers sig) result
  · split at result
    · refine checkTransaction_nonnegative positive (fun t head => ?_) result
      exact nonnegative.attrs sig t (List.mem_of_mem_head? head)
    · simp at result

theorem checkFuture_nonnegative {fuel : Nat} {start : SignalPtr} (positive : 0 ≤ res) (nonnegative : state.Nonnegative)
    (result : checkFuture design now fuel state res start = .ok (state', res')) : 0 ≤ res' := by
  induction fuel generalizing state res start with
  | zero =>
    cases start with
    | none =>
      simp only [checkFuture, Except.ok.injEq, Prod.mk.injEq] at result
      exact result.2 ▸ positive
    | some sig => simp [checkFuture] at result
  | succ fuel ih =>
    cases start with
    | none =>
      simp only [checkFuture, Except.ok.injEq, Prod.mk.injEq] at result
      exact result.2 ▸ positive
    | some sig =>
      simp only [checkFuture] at result
      split at result
      · simp only [Except.ok.injEq, Prod.mk.injEq] at result
        exact result.2 ▸ positive
      · obtain ⟨⟨middle, time⟩, checked, result⟩ := bind_ok.mp result
        have frame := NextFrame.checkSignal checked
        exact ih (checkSignal_nonnegative positive nonnegative checked)
          (nonnegative.congr frame.drivers frame.attrTrans) result

theorem findNextTime_nonnegative {tn : Int} (present : 0 ≤ now) (positive : 0 ≤ tn) (nonnegative : state.Nonnegative)
    (result : findNextTime design now state tn = .ok (state', res)) : 0 ≤ res := by
  unfold findNextTime at result
  split at result
  · simp only [Except.ok.injEq, Prod.mk.injEq] at result
    exact result.2 ▸ present
  · split at result
    · simp only [Except.ok.injEq, Prod.mk.injEq] at result
      exact result.2 ▸ present
    · split at result
      · simp only [Except.ok.injEq, Prod.mk.injEq] at result
        exact result.2 ▸ present
      · exact checkFuture_nonnegative positive nonnegative result

end NextTime

/-- No addition of a time to the current time overflows: not the time for which a process waits, that of a
callback, or the delay of an implicit signal. -/
def Kernel.FitsTimes (design : Design) (kernel : Kernel) : Label → Prop
  | .suspend suspension => ∀ time ∈ suspension.time, kernel.now + time ≤ StdTime.last
  | .callback (.registerAt delay) => 0 ≤ delay ∧ kernel.now + delay ≤ StdTime.last
  | .tick => kernel.phase = .updateSignals →
    ∀ sig, 0 ≤ (design.decl sig).time ∧ kernel.now + (design.decl sig).time ≤ StdTime.last
  | _ => True

/-- No callback is registered for a negative time. -/
structure Callbacks.Nonnegative (callbacks : Callbacks) : Prop where
  afterDelay : ∀ time ∈ callbacks.afterDelay, 0 ≤ time
  firstTimeout : 0 ≤ callbacks.firstTimeout

theorem Callbacks.Nonnegative.registerCallbackAt {callbacks : Callbacks} {t : Int}
    (nonnegative : callbacks.Nonnegative) (positive : 0 ≤ t) : (callbacks.registerCallbackAt t).Nonnegative := by
  constructor
  · intro time inside
    rcases List.mem_append.mp inside with before | inside
    · exact nonnegative.afterDelay time ((List.takeWhile_prefix _).subset before)
    · rcases List.mem_cons.mp inside with rfl | after
      · exact positive
      · exact nonnegative.afterDelay time ((List.dropWhile_suffix _).subset after)
  · show 0 ≤ if _ then t else callbacks.firstTimeout
    split
    · exact positive
    · exact nonnegative.firstTimeout

namespace Kernel

variable {design : Design} {kernel kernel' : Kernel}

/-- No time is negative. -/
structure Nonnegative (kernel : Kernel) : Prop where
  now : 0 ≤ kernel.now
  nextTime : 0 ≤ kernel.nextTime
  signals : kernel.signals.Nonnegative
  callbacks : kernel.callbacks.Nonnegative

/-- `Compute_Next_Time`. -/
theorem Nonnegative.computeNextTime {tn : Int} (nonnegative : kernel.Nonnegative)
    (first : 0 ≤ kernel.processes.firstTimeout)
    (result : kernel.computeNextTime design = .ok (kernel', tn)) : 0 ≤ tn := by
  have start : 0 ≤ min (min StdTime.last kernel.processes.firstTimeout) kernel.callbacks.firstTimeout :=
    le_min (le_min (by decide) first) nonnegative.callbacks.firstTimeout
  unfold Kernel.computeNextTime at result
  dsimp only at result
  split at result
  · simp only [Except.ok.injEq, Prod.mk.injEq] at result
    exact result.2 ▸ start
  · obtain ⟨⟨signals, res⟩, found, result⟩ := bind_ok.mp result
    simp only [Except.ok.injEq, Prod.mk.injEq] at result
    obtain ⟨-, rfl⟩ := result
    exact findNextTime_nonnegative nonnegative.now start nonnegative.signals found

theorem Nonnegative.ticks (nonnegative : kernel.Nonnegative)
    (first : 0 ≤ kernel.processes.firstTimeout) (fits : kernel.FitsTimes design .tick)
    (ticks : Ticks design kernel kernel') : kernel'.Nonnegative := by
  obtain ⟨now, nextTime, signals, callbacks⟩ := nonnegative
  cases ticks with
  | cycle at' phase next => exact ⟨nextTime, nextTime, signals, callbacks⟩
  | callback hook kept left at' =>
    unfold returnCallback
    split
    · exact ⟨now, nextTime, signals, callbacks.afterDelay, callbacks.firstTimeout⟩
    · exact ⟨now, nextTime, signals, callbacks⟩
  | timeCallback at' =>
    unfold callTimeCallback
    split
    · exact ⟨now, nextTime, signals, callbacks.afterDelay, (by decide : 0 ≤ StdTime.last)⟩
    · next t times held =>
      have each := callbacks.afterDelay
      rw [held] at each
      split
      · exact ⟨now, nextTime, signals, callbacks.afterDelay, each t List.mem_cons_self⟩
      · exact ⟨now, nextTime, signals, fun time inside => each time (List.mem_cons_of_mem t inside),
          callbacks.firstTimeout⟩
  | nextTimeStep | timeReturn | signalsUpdated | awake | startOfProcesses | firstPostponed | ran =>
    exact ⟨now, nextTime, signals, callbacks⟩
  | update at' signals' updated =>
    refine ⟨now, nextTime, ?_, callbacks⟩
    refine (signals.updateSignals (fun sig => ?_) updated).congr rfl rfl
    obtain ⟨delay, fits⟩ := fits at' sig
    rw [StdTime.add_exact now delay fits]
    omega
  | ends start middle at' tn computed kernel' finish =>
    have same : middle = { kernel with signals := middle.signals } ∧
        NextFrame start.signals middle.signals ∧ NextFrame kernel.signals start.signals ∧
        start.Nonnegative ∧ 0 ≤ start.processes.firstTimeout := by
      obtain ⟨frame, next⟩ := computeNextTime_frame computed
      rcases at' with ⟨rfl, -⟩ | ⟨rfl, -⟩
      · exact ⟨frame, next, .refl _, ⟨now, nextTime, signals, callbacks⟩, first⟩
      · have flushed := NextFrame.flushActiveChain kernel.signals design.count
        exact ⟨frame, next, flushed,
          ⟨now, nextTime, signals.congr flushed.drivers flushed.attrTrans, callbacks⟩, first⟩
    obtain ⟨same, frame, frame', started, first⟩ := same
    have later := started.computeNextTime first computed
    have signals' : middle.signals.Nonnegative := started.signals.congr frame.drivers frame.attrTrans
    rw [same] at finish
    cases finish with
    | lastKnownDelta | endOfTimeStep => exact ⟨now, nextTime, signals', callbacks⟩
    | initialization =>
      refine ⟨now, later, ?_, callbacks⟩
      unfold endInitialization
      dsimp only
      split
      · exact signals'.congr rfl rfl
      · exact signals'
    | delta =>
      unfold endDelta
      split <;> exact ⟨now, nextTime, signals', callbacks⟩
    | postponed => exact ⟨now, nextTime, signals'.congr rfl rfl, callbacks⟩
    | timeStep => exact ⟨now, later, signals'.congr rfl rfl, callbacks⟩

theorem Nonnegative.step {label : Label} (nonnegative : kernel.Nonnegative)
    (first : 0 ≤ kernel.processes.firstTimeout) (fits : kernel.FitsTimes design label)
    (enabled : kernel.enabled design label = true) (result : kernel.step design label = .ok kernel') :
    kernel'.Nonnegative := by
  cases label with
  | tick => exact nonnegative.ticks first fits (tick_cases enabled result)
  | run again =>
    obtain ⟨postponed, p, table, at', -, runs⟩ := runProcess_cases enabled result
    cases runs with
    | again | ready => exact ⟨nonnegative.now, nonnegative.nextTime, nonnegative.signals,
        nonnegative.callbacks⟩
    | close => exact ⟨nonnegative.now, nonnegative.nextTime, nonnegative.signals.congr rfl rfl,
        nonnegative.callbacks⟩
  | call call =>
    simp only [Kernel.step] at result
    split at result
    · obtain ⟨signals, called, result⟩ := bind_ok.mp result
      rw [← Except.ok.inj result]
      exact ⟨nonnegative.now, nonnegative.nextTime, nonnegative.signals.processCall called, nonnegative.callbacks⟩
    · exact Except.ok.inj result ▸ nonnegative
  | suspend suspension =>
    simp only [Kernel.step] at result
    split at result
    · obtain ⟨middle, suspended, result⟩ := bind_ok.mp result
      rw [← Except.ok.inj result, suspend_frame suspended]
      exact ⟨nonnegative.now, nonnegative.nextTime, nonnegative.signals.congr rfl rfl, nonnegative.callbacks⟩
    · exact Except.ok.inj result ▸ nonnegative
  | callback call =>
    rw [← Except.ok.inj result]
    cases call with
    | force value => exact ⟨nonnegative.now, nonnegative.nextTime, nonnegative.signals.congr rfl rfl,
        nonnegative.callbacks⟩
    | registerAt delay =>
      obtain ⟨positive, fits⟩ : 0 ≤ delay ∧ kernel.now + delay ≤ StdTime.last := fits
      refine ⟨nonnegative.now, nonnegative.nextTime, nonnegative.signals, nonnegative.callbacks.registerCallbackAt ?_⟩
      have now := nonnegative.now
      rw [StdTime.add_exact now positive fits]
      omega
    | register | delete => exact ⟨nonnegative.now, nonnegative.nextTime, nonnegative.signals,
        nonnegative.callbacks.afterDelay, nonnegative.callbacks.firstTimeout⟩

end Kernel

end Ghdl.Grt
