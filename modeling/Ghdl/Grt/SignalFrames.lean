import Ghdl.Grt.Cycle
import Ghdl.Grt.Edits

/-!
# What the calls of the run time leave alone

A signal assignment edits drivers and puts its signal on a chain. The search for the next time edits the
chain of the next cycle. Neither of them touches any other field of the signals.
-/

namespace Ghdl.Grt

open Fallible Relation

/-- The fields that a signal assignment leaves. -/
structure AssignFrame (state state' : SignalState) : Prop where
  values : state'.values = state.values
  attrTrans : state'.attrTrans = state.attrTrans
  eventList : state'.eventList = state.eventList
  implicitChain : state'.implicitChain = state.implicitChain
  nextChain : state'.nextChain = state.nextChain
  clearList : state'.clearList = state.clearList
  forceValues : state'.forceValues = state.forceValues
  updated : state'.updated = state.updated
  resumed : state'.resumed = state.resumed

namespace AssignFrame

variable {state state' state'' : SignalState}

theorem refl (state : SignalState) : AssignFrame state state := by constructor <;> rfl

theorem trans (first : AssignFrame state state') (second : AssignFrame state' state'') : AssignFrame state state'' := by
  obtain ⟨⟩ := first
  obtain ⟨⟩ := second
  constructor <;> apply Eq.trans <;> assumption

theorem insertActive (state : SignalState) (sign : SignalId) : AssignFrame state (state.insertActive sign) := by
  unfold SignalState.insertActive
  split <;> constructor <;> rfl

theorem insertFuture (state : SignalState) (sign : SignalId) : AssignFrame state (state.insertFuture sign) := by
  unfold SignalState.insertFuture
  split <;> constructor <;> rfl

theorem insertFutures (state : SignalState) (signs : List SignalId) :
    AssignFrame state (signs.foldl SignalState.insertFuture state) := by
  induction signs generalizing state with
  | nil => exact refl state
  | cons sign signs ih => exact (insertFuture state sign).trans (ih _)

theorem setDriver (state : SignalState) (sign : SignalId) (drv : Nat) (driver : Driver) :
    AssignFrame state (state.setDriver sign drv driver) := by constructor <;> rfl

theorem removeActive {count : Nat} {sign : SignalId}
    (result : state.removeActive count sign = .ok state') : AssignFrame state state' := by
  unfold SignalState.removeActive at result
  split at result
  · exact Except.ok.inj result ▸ refl state
  · split at result
    · rw [← Except.ok.inj result]
      constructor <;> rfl
    · obtain ⟨prev, -, result⟩ := bind_ok.mp result
      rw [← Except.ok.inj result]
      constructor <;> rfl

variable {trans : TransactionKind} {after : Int}

theorem assignDirect {sign : SignalId} {drv : Nat} {driver : Driver} (result : state.assignDirect sign drv driver trans after = .ok state') :
    AssignFrame state state' := by
  unfold SignalState.assignDirect at result
  split at result
  · simp at result
  · split at result
    · exact Except.ok.inj result ▸ setDriver state sign drv _
    all_goals simp at result

variable {design : Design} {now : Int} {proc : ProcId} {sign : SignalId}

theorem startAssign {reject : Int}
    (result : ghdlSignalStartAssign design now proc state sign reject trans after = .ok state') :
    AssignFrame state state' := by
  obtain ⟨drv, -, result⟩ := bind_ok.mp result
  split at result
  · simp at result
  · have inserted : AssignFrame state
        (if after = 0 then state.insertActive sign else state.insertFuture sign) := by
      split
      · exact insertActive state sign
      · exact insertFuture state sign
    dsimp only at result
    generalize (if after = 0 then state.insertActive sign else state.insertFuture sign) = next at inserted result
    refine inserted.trans ?_
    split at result
    · exact Except.ok.inj result ▸ refl next
    · split at result
      · simp at result
      · obtain ⟨last, -, result⟩ := bind_ok.mp result
        split at result
        · exact assignDirect result
        · obtain ⟨driver, -, result⟩ := bind_ok.mp result
          refine (setDriver next sign drv driver).trans ?_
          split at result
          · obtain ⟨active, -, result⟩ := bind_ok.mp result
            split at result
            · obtain ⟨final, kept, result⟩ := bind_ok.mp result
              obtain rfl := Except.ok.inj kept
              obtain ⟨-, -, result⟩ := bind_ok.mp result
              exact Except.ok.inj result ▸ refl _
            · obtain ⟨final, removed, result⟩ := bind_ok.mp result
              obtain ⟨-, -, result⟩ := bind_ok.mp result
              exact Except.ok.inj result ▸ removeActive removed
          · obtain ⟨-, -, result⟩ := bind_ok.mp result
            exact Except.ok.inj result ▸ refl _

theorem nextAssign
    (result : ghdlSignalNextAssign now proc state sign trans after = .ok state') : AssignFrame state state' := by
  obtain ⟨drv, -, result⟩ := bind_ok.mp result
  have inserted : AssignFrame state (if 0 < after then state.insertFuture sign else state) := by
    split
    · exact insertFuture state sign
    · exact refl state
  dsimp only at result
  generalize (if 0 < after then state.insertFuture sign else state) = next at inserted result
  split at result
  · simp at result
  · obtain ⟨driver, -, result⟩ := bind_ok.mp result
    exact inserted.trans (Except.ok.inj result ▸ setDriver next sign drv driver)

theorem simpleAssign {val : ValueUnion}
    (result : ghdlSignalSimpleAssign design now proc state sign val = .ok state') : AssignFrame state state' := by
  simp only [ghdlSignalSimpleAssign] at result
  split at result
  · split at result
    · obtain ⟨idle, failed, -⟩ := bind_ok.mp result
      simp at failed
    · obtain ⟨first, -, result⟩ := bind_ok.mp result
      obtain ⟨idle, -, result⟩ := bind_ok.mp result
      split at result
      · exact Except.ok.inj result ▸ refl state
      · exact startAssign result
  · obtain ⟨idle, -, result⟩ := bind_ok.mp result
    split at result
    · exact Except.ok.inj result ▸ refl state
    · exact startAssign result

theorem startAssignNull {reject : Int}
    (result : ghdlSignalStartAssignNull design now proc state sign reject after = .ok state') :
    AssignFrame state state' := by
  unfold ghdlSignalStartAssignNull at result
  split at result
  · simp at result
  · exact startAssign result

theorem disconnect (result : ghdlSignalDisconnect design now proc state sign = .ok state') :
    AssignFrame state state' := by
  unfold ghdlSignalDisconnect at result
  split at result
  · simp at result
  · split at result
    · simp at result
    · exact startAssign result

theorem directAssign (state : SignalState) (sign : SignalId) : AssignFrame state (ghdlSignalDirectAssign state sign) :=
  (insertActive state sign).trans (by constructor <;> rfl)

end AssignFrame

/-- A process only assigns signals. -/
theorem Kernel.processCall_frame {design : Design} {kernel : Kernel} {p : ProcId}
    {call : ProcessCall} {signals : SignalState} (result : kernel.processCall design p call = .ok signals) :
    AssignFrame kernel.signals signals := by
  cases call with
  | assign sign reject kind after rest =>
    simp only [processCall] at result
    split at result
    · obtain ⟨first, started, result⟩ := bind_ok.mp result
      exact foldlM_invariant result (.startAssignNull started) fun _ _ _ _ frame next =>
        frame.trans (.nextAssign next)
    · obtain ⟨first, started, result⟩ := bind_ok.mp result
      exact foldlM_invariant result (.startAssign started) fun _ _ _ _ frame next =>
        frame.trans (.nextAssign next)
  | simpleAssign sign val => exact .simpleAssign result
  | disconnect sign => exact .disconnect result
  | directAssign sign val active =>
    have assigned : AssignFrame kernel.signals (assignVariable kernel.signals p sign val) := by
      constructor <;> rfl
    rw [← Except.ok.inj result]
    split
    · exact assigned.trans (.directAssign _ sign)
    · exact assigned

/-- The fields that the search for the next time leaves. -/
structure NextFrame (state state' : SignalState) : Prop where
  values : state'.values = state.values
  flink : state'.flink = state.flink
  directActive : state'.directActive = state.directActive
  drivers : state'.drivers = state.drivers
  attrTrans : state'.attrTrans = state.attrTrans
  eventList : state'.eventList = state.eventList
  activeChain : state'.activeChain = state.activeChain
  implicitChain : state'.implicitChain = state.implicitChain
  futureList : state'.futureList = state.futureList
  clearList : state'.clearList = state.clearList
  forceValues : state'.forceValues = state.forceValues
  updated : state'.updated = state.updated
  resumed : state'.resumed = state.resumed

namespace NextFrame

variable {state state' state'' : SignalState}

theorem refl (state : SignalState) : NextFrame state state := by constructor <;> rfl

theorem trans (first : NextFrame state state') (second : NextFrame state' state'') : NextFrame state state'' := by
  obtain ⟨⟩ := first
  obtain ⟨⟩ := second
  constructor <;> apply Eq.trans <;> assumption

theorem flushActiveChain (state : SignalState) (count : Nat) :
    NextFrame state (state.flushActiveChain count) := by constructor <;> rfl

theorem pushNext (state : SignalState) (sig : SignalId) : NextFrame state (state.pushNext sig) := by constructor <;> rfl

variable {design : Design} {now : Int}

theorem considerTime (state : SignalState) (res : Int) (sig : SignalId) (time : Int) :
    NextFrame state (considerTime design state res sig time).1 := by
  unfold Grt.considerTime
  split
  · exact pushNext state sig
  · split
    · exact (flushActiveChain state design.count).trans (pushNext _ sig)
    · exact refl state

variable {res res' : Int} {sig : SignalId}

theorem checkTransaction {trans : Option Transaction}
    (result : checkTransaction design now state res sig trans = .ok (state', res')) : NextFrame state state' := by
  unfold Grt.checkTransaction at result
  split at result
  · simp only [Except.ok.injEq, Prod.mk.injEq] at result
    exact result.1 ▸ refl state
  · split at result
    · simp only [Except.ok.injEq, Prod.mk.injEq] at result
      exact result.1 ▸ refl state
    · split at result
      · simp at result
      · next next _ _ =>
        have frame : NextFrame state (Grt.considerTime design state res sig next.time).1 :=
          considerTime state res sig next.time
        rwa [Except.ok.inj result] at frame

theorem checkDrivers {drivers : List Driver}
    (result : checkDrivers design now sig drivers state res = .ok (state', res')) : NextFrame state state' := by
  induction drivers generalizing state res with
  | nil =>
    simp only [Grt.checkDrivers, Except.ok.injEq, Prod.mk.injEq] at result
    exact result.1 ▸ refl state
  | cons driver drivers ih =>
    simp only [Grt.checkDrivers, bind_ok] at result
    obtain ⟨trans, -, ⟨next, res⟩, checked, result⟩ := result
    exact (checkTransaction checked).trans (ih result)

theorem checkSignal (result : checkSignal design now state res sig = .ok (state', res')) : NextFrame state state' := by
  unfold Grt.checkSignal at result
  split at result
  · exact checkDrivers result
  · split at result
    · exact checkTransaction result
    · simp at result

theorem checkFuture {fuel : Nat} {start : SignalPtr}
    (result : checkFuture design now fuel state res start = .ok (state', res')) : NextFrame state state' := by
  induction fuel generalizing state res start with
  | zero =>
    cases start with
    | none =>
      simp only [Grt.checkFuture, Except.ok.injEq, Prod.mk.injEq] at result
      exact result.1 ▸ refl state
    | some sig => simp [Grt.checkFuture] at result
  | succ fuel ih =>
    cases start with
    | none =>
      simp only [Grt.checkFuture, Except.ok.injEq, Prod.mk.injEq] at result
      exact result.1 ▸ refl state
    | some sig =>
      simp only [Grt.checkFuture] at result
      split at result
      · simp only [Except.ok.injEq, Prod.mk.injEq] at result
        exact result.1 ▸ refl state
      · obtain ⟨⟨next, res⟩, checked, result⟩ := bind_ok.mp result
        exact (checkSignal checked).trans (ih result)

theorem findNextTime {tn : Int}
    (result : findNextTime design now state tn = .ok (state', res)) : NextFrame state state' := by
  unfold Grt.findNextTime at result
  split at result
  · simp only [Except.ok.injEq, Prod.mk.injEq] at result
    exact result.1 ▸ refl state
  · split at result
    · simp only [Except.ok.injEq, Prod.mk.injEq] at result
      exact result.1 ▸ refl state
    · split at result
      · simp only [Except.ok.injEq, Prod.mk.injEq] at result
        exact result.1 ▸ refl state
      · exact checkFuture result

end NextFrame

/-- `Compute_Next_Time` edits the chain of the next cycle only. -/
theorem Kernel.computeNextTime_frame {design : Design} {kernel kernel' : Kernel} {tn : Int}
    (result : kernel.computeNextTime design = .ok (kernel', tn)) :
    kernel' = { kernel with signals := kernel'.signals } ∧ NextFrame kernel.signals kernel'.signals := by
  unfold computeNextTime at result
  dsimp only at result
  split at result
  · simp only [Except.ok.injEq, Prod.mk.injEq] at result
    obtain ⟨rfl, -⟩ := result
    exact ⟨rfl, .refl _⟩
  · obtain ⟨⟨signals, res⟩, found, result⟩ := bind_ok.mp result
    simp only [Except.ok.injEq, Prod.mk.injEq] at result
    obtain ⟨rfl, -⟩ := result
    exact ⟨rfl, .findNextTime found⟩

/-- An update leaves the event lists, and resumes processes of these lists only. -/
theorem updateSignals_events {design : Design} {now : Int} {state state' : SignalState}
    (result : updateSignals design now state = .ok state') : state'.eventList = state.eventList ∧
      ∀ p ∈ state'.resumed, p ∈ state.resumed ∨ ∃ sig dynamic, ⟨dynamic, p⟩ ∈ state.eventList sig := by
  have changes := updateSignals_changes result
  clear result
  induction changes with
  | refl => exact ⟨rfl, fun _ inside => .inl inside⟩
  | @tail middle _ _ change ih =>
    obtain ⟨lists, resumed⟩ := ih
    cases change with
    | edit edit =>
      cases edit with
      | event sig values =>
        refine ⟨lists, fun p inside => ?_⟩
        rcases List.mem_append.mp inside with old | new
        · exact resumed p old
        · obtain ⟨⟨dynamic, q⟩, member, rfl⟩ := List.mem_map.mp new
          exact .inr ⟨sig, dynamic, lists ▸ member⟩
      | values | drivers | attr => exact ⟨lists, resumed⟩
      | active sig =>
        have frame := AssignFrame.insertActive middle sig
        exact ⟨frame.eventList.trans lists, frame.resumed ▸ resumed⟩
      | implicit sig =>
        unfold SignalState.insertImplicit
        split <;> exact ⟨lists, resumed⟩
    | links | flags | driver => exact ⟨lists, resumed⟩

end Ghdl.Grt
