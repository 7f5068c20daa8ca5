import Ghdl.Grt.Signals

/-!
# Updating signals

`Grt.Signals`, the part of a simulation cycle that makes due transactions the driving values,
propagates them through the nets, and sets the effective values: `Run_Propagation` and
`Update_Signals`. Resumed processes are collected in `SignalState.resumed`.
-/

namespace Ghdl.Grt

open Function

/-- Update every driver of a list; is one of them active? -/
def updateDrivers (now : Int) : List Driver → Except GrtError (Bool × List Driver)
  | [] => .ok (false, [])
  | driver :: drivers => do
    let (activity, driver) ← driver.update now
    let (active, drivers) ← updateDrivers now drivers
    .ok (activity.isActive || active, driver :: drivers)

namespace SignalState

/-- `Add_Active_Chain`. -/
def addActiveChain (state : SignalState) (sig : SignalId) : SignalState := state.insertActive sig

/-- Put SIG on the chain of implicit signals, if it is on no chain. -/
def insertImplicit (state : SignalState) (sig : SignalId) : SignalState :=
  if state.link sig = none then
    { state with
      link := update state.link sig (some state.implicitChain)
      implicitChain := some sig }
  else state

/-- `Mark_Active`. -/
def markActive (state : SignalState) (now : Int) (sig : SignalId) : SignalState :=
  if (state.values sig).active then state
  else
    { state with
      values := update state.values sig
        { state.values sig with active := true, lastActive := now }
      clearList := sig :: state.clearList }

/-- `Sig.Driving_Value := Val`. -/
def setDrivingValue (state : SignalState) (sig : SignalId) (val : ValueUnion) : SignalState :=
  { state with
    values := update state.values sig { state.values sig with drivingValue := val } }

/-- `Sig.Active := Active`. -/
def setActive (state : SignalState) (sig : SignalId) (active : Bool) : SignalState :=
  { state with values := update state.values sig { state.values sig with active } }

/-- `Sig.S.Attr_Trans := Trans`. -/
def setAttrTrans (state : SignalState) (sig : SignalId) (trans : AttrTrans) : SignalState :=
  { state with attrTrans := update state.attrTrans sig trans }

/-- `Sig.S.Drivers := Drivers`. -/
def setDrivers (state : SignalState) (sig : SignalId) (drivers : List Driver) : SignalState :=
  { state with drivers := update state.drivers sig drivers }

/-- `Sig.Flags.Is_Direct_Active := False`. -/
def clearDirectActive (state : SignalState) (sig : SignalId) : SignalState :=
  { state with directActive := update state.directActive sig false }

end SignalState

variable (design : Design) (now : Int)

/-- `Set_Effective_Value`: on a change there is an event, which resumes the sensitive processes. -/
def setEffectiveValue (state : SignalState) (sig : SignalId) (val : ValueUnion) : SignalState :=
  if valueEqual (state.values sig).value val (design.decl sig).mode then state
  else
    { state with
      values := update state.values sig
        { state.values sig with
          lastValue := (state.values sig).value
          value := val
          event := true
          lastEvent := now
          roEvent := true }
      resumed := state.resumed ++ (state.eventList sig).map (·.proc) }

/-- `Set_Effective_Value (Sig, Sig.Driving_Value'Unrestricted_Access)`. -/
def setEffectiveFromDriving (state : SignalState) (sig : SignalId) : SignalState :=
  setEffectiveValue design now state sig (state.values sig).drivingValue

/-- A loop over the ports of a signal: is one of them active? -/
def anyPortActive (state : SignalState) (sig : SignalId) : Bool :=
  (design.decl sig).ports.any fun port => (state.values port).active

/-- A loop over the ports of a signal: does one of them have an event? -/
def anyPortEvent (state : SignalState) (sig : SignalId) : Bool :=
  (design.decl sig).ports.any fun port => (state.values port).event

/-- `Get_Resolved_Activity`. -/
def getResolvedActivity (state : SignalState) (sig : SignalId) :
    Except GrtError (Bool × SignalState) := do
  let (active, drivers) ← updateDrivers now (state.drivers sig)
  .ok (active || anyPortActive design state sig, state.setDrivers sig drivers)

/-- The values of the drivers of a signal, without those that are disconnected. -/
def driverValues : List Driver → Except GrtError (List ValueUnion)
  | [] => .ok []
  | driver :: drivers => do
    match ← driver.firstKind with
    | .value val => do
      let values ← driverValues drivers
      .ok (val :: values)
    | .null => driverValues drivers
    | .error file line => .error (errorTransError file line)
    | .direct => .error (.internalError "ghdl_signal_read_driver: trans_direct")

/-- Compute number of non-null drivers. -/
def driverVec : List Driver → Except GrtError (List Bool)
  | [] => .ok []
  | driver :: drivers => do
    match ← driver.firstKind with
    | .value _ => do
      let vec ← driverVec drivers
      .ok (true :: vec)
    | .null => do
      let vec ← driverVec drivers
      .ok (false :: vec)
    | .error _ _ => .error (.error "range check error")
    | .direct => .error (.internalError "compute_resolved_signal: trans_direct")

/-- Check driving condition on one signal. -/
def checkVec : List Bool → List Driver → Except GrtError Unit
  | [], _ => .ok ()
  | _ :: _, [] => .error .nullAccess
  | connected :: vec, driver :: drivers => do
    let kind ← driver.firstKind
    if (kind != .null) != connected then .error (.error "null-transaction required")
    else checkVec vec drivers

/-- The values of the sources of a signal: its drivers, then its ports. -/
def sourceValues (state : SignalState) (sig : SignalId) : Except GrtError (List ValueUnion) := do
  let values ← driverValues (state.drivers sig)
  .ok (values ++ (design.decl sig).ports.map fun port => (state.values port).drivingValue)

/-- `Compute_Resolved_Signal`. -/
def computeResolvedSignal (state : SignalState) (resolv : Nat) : Except GrtError SignalState := do
  let range := (design.resolved resolv).sigRange
  let sig := range.first
  let vec ← driverVec (state.drivers sig)
  (range.toList.drop 1).forM fun other => checkVec vec (state.drivers other)
  if !vec.any id && (design.decl sig).ports = [] && (design.decl sig).sigKind = .register then
    .ok state
  else do
    let values ← range.toList.mapM (sourceValues design state)
    .ok (((range.toList.zip ((design.resolved resolv).resolvProc values)).foldl
      fun state result => state.setDrivingValue result.1 result.2) state)

/-- `Call_Conversion_Function`. -/
def callConversionFunction (state : SignalState) (conv : Nat) : SignalState :=
  let read := fun sig => ((state.values sig).drivingValue, (state.values sig).value)
  let results := (design.conversion conv).func ((design.conversion conv).src.toList.map read)
  ((design.conversion conv).dest.toList.zip results).foldl
    (fun state result =>
      { state with
        values := update state.values result.1
          { state.values result.1 with drivingValue := result.2.1, value := result.2.2 } })
    state

/-- `Set_Conversion_Activity`. -/
def setConversionActivity (state : SignalState) (conv : Nat) : SignalState :=
  let active := (design.conversion conv).src.toList.any fun sig => (state.values sig).active
  let state := if active then callConversionFunction design state conv else state
  (design.conversion conv).dest.toList.foldl (fun state sig => state.setActive sig active) state

/-- `Sig.S.Ports (0)`. -/
def firstPort (sig : SignalId) : Except GrtError SignalId :=
  match (design.decl sig).ports with
  | [] => .error .nullAccess
  | port :: _ => .ok port

/-- `Delayed_Implicit_Process`: an event of the prefix is projected to occur after the delay. -/
def delayedImplicitProcess (state : SignalState) (sig : SignalId) : Except GrtError SignalState := do
  let pfx ← firstPort design sig
  if (state.values pfx).event then
    let ntime := StdTime.add now (design.decl sig).time
    let trans := state.attrTrans sig
    let val := (state.values pfx).value
    let last := trans.pending.getLastD trans.current
    let trans :=
      if last.time = ntime then
        -- Change the projected value.
        match trans.pending with
        | [] => { trans with current := { trans.current with kind := .value val } }
        | _ => { trans with pending := trans.pending.dropLast ++ [{ last with kind := .value val }] }
      else { trans with pending := trans.pending ++ [⟨.value val, ntime⟩] }
    let state := state.setAttrTrans sig trans
    .ok (if (design.decl sig).time = 0 then state.addActiveChain sig else state)
  else .ok state

/-- A transaction of an implicit signal that is due becomes the current one. -/
def AttrTrans.consumeDue (trans : AttrTrans) (now : Int) : Option AttrTrans :=
  match trans.pending with
  | [] => none
  | next :: pending => if next.time = now then some ⟨next, pending⟩ else none

/-- The value of the current transaction of an implicit signal. -/
def AttrTrans.val (trans : AttrTrans) : ValueUnion :=
  match trans.current.kind with
  | .value val => val
  | _ => .b1 false

/-- `Run_Propagation`, for one driver: the driving value of the signal is that of its driver. -/
def runOneDriver (state : SignalState) (sig : SignalId) : Except GrtError SignalState :=
  match state.drivers sig with
  | [] => .error .nullAccess
  | driver :: drivers => do
    let (activity, driver) ← driver.update now
    let state := state.setDrivers sig (driver :: drivers)
    match activity with
    | .idle => .ok state
    | .direct val => .ok ((state.markActive now sig).setDrivingValue sig val)
    | .due (.value val) => .ok ((state.markActive now sig).setDrivingValue sig val)
    | .due .direct => .error (.internalError "run_propagation: trans_direct")
    | .due .null => .error (.error "null transaction")
    | .due (.error file line) => .error (errorTransError file line)

/-- `Run_Propagation`, for a scalar resolved signal. -/
def runOneResolved (state : SignalState) (sig : SignalId) : Except GrtError SignalState := do
  let (active, state) ← getResolvedActivity design now state sig
  if active then
    match (design.decl sig).resolv with
    | none => .error .nullAccess
    | some resolv => computeResolvedSignal design (state.markActive now sig) resolv
  else .ok state

/-- `Run_Propagation`, for a port: the driving value is that of the port. -/
def runOnePort (state : SignalState) (sig : SignalId) : Except GrtError SignalState := do
  let port ← firstPort design sig
  if (state.values port).active then
    .ok ((state.markActive now sig).setDrivingValue sig (state.values port).drivingValue)
  else .ok state

/-- The activity of the subelements of a composite resolved signal. -/
def resolvedActivity (state : SignalState) : List SignalId → Except GrtError (Bool × SignalState)
  | [] => .ok (false, state)
  | sig :: sigs => do
    let (active, state) ← getResolvedActivity design now state sig
    let (others, state) ← resolvedActivity state sigs
    .ok (active || others, state)

/-- `Run_Propagation`, for a composite resolved signal. -/
def runMultiple (state : SignalState) (resolv : Nat) : Except GrtError SignalState := do
  let sigs := (design.resolved resolv).sigRange.toList
  let (active, state) ← resolvedActivity design now state sigs
  if active then
    computeResolvedSignal design (sigs.foldl (fun state sig => state.markActive now sig) state) resolv
  else .ok state

/-- `Run_Propagation`, first: the driving value. -/
def runDriving (state : SignalState) : PropagationCell → Except GrtError SignalState
  | .drvOneDriver sig | .effOneDriver sig => runOneDriver now state sig
  | .drvOneResolved sig | .effOneResolved sig => runOneResolved design now state sig
  | .drvOnePort sig | .effOnePort sig => runOnePort design now state sig
  | .effActual sig =>
    match (design.decl sig).effective with
    | none => .error .nullAccess
    | some actual =>
      .ok (if (state.values actual).active then state.markActive now sig else state)
  | .drvMultiple resolv | .effMultiple resolv => runMultiple design now state resolv
  | .impGuard _ | .impStable _ | .impQuiet _ | .impTransaction _ | .impForwardBuild _ _ => .ok state
  | .impForward sig => .ok (state.insertImplicit sig)
  | .impDelayed sig =>
    match (state.attrTrans sig).consumeDue now with
    | none => .ok state
    | some attr =>
      .ok (((state.markActive now sig).setAttrTrans sig attr).setDrivingValue sig attr.val)
  | .inConversion _ => .ok state
  | .outConversion conv => .ok (setConversionActivity design state conv)
  | .propEnd => .ok state
  | .drvError => .error (.internalError "update signals")

/-- `Run_Propagation`, for a guard signal: it is active iff one of its dependences is. -/
def runGuard (state : SignalState) (sig : SignalId) : SignalState :=
  let state := if anyPortActive design state sig then state.markActive now sig else state
  if (state.values sig).active then
    let guard := (design.decl sig).guardFunc fun sig => (state.values sig).value
    setEffectiveFromDriving design now (state.setDrivingValue sig (.b1 guard)) sig
  else state

/-- `Run_Propagation`, for S'Stable and S'Quiet, ACTIVE being the activity of the prefix. -/
def runStableQuiet (state : SignalState) (sig : SignalId) (active : Bool) : SignalState :=
  let state := if active then state.markActive now sig else state
  if (state.values sig).active then
    let state := state.setDrivingValue sig (.b1 false)
    -- Set driver.
    let trans : Transaction := ⟨.value (.b1 true), StdTime.add now (design.decl sig).time⟩
    let state := state.setAttrTrans sig ⟨(state.attrTrans sig).current, [trans]⟩
    let state := setEffectiveFromDriving design now state sig
    if (design.decl sig).time = 0 then state.addActiveChain sig else state
  else
    match (state.attrTrans sig).consumeDue now with
    | none => state
    | some attr =>
      setEffectiveFromDriving design now
        (((state.markActive now sig).setAttrTrans sig attr).setDrivingValue sig attr.val) sig

/-- `Run_Propagation`, for S'Transaction: its value changes iff the prefix is active. -/
def runTransaction (state : SignalState) (sig : SignalId) : SignalState :=
  if anyPortActive design state sig then
    let val := ValueUnion.b1 (!(state.values sig).value.getB1)
    setEffectiveValue design now (state.markActive now sig) sig val
  else state

/-- The effective value of an active signal is its driving value. -/
def runEffective (state : SignalState) (sig : SignalId) : SignalState :=
  if (state.values sig).active then setEffectiveFromDriving design now state sig else state

/-- `Run_Propagation`, second: the effective value. -/
def runEffectiveValue (state : SignalState) : PropagationCell → Except GrtError SignalState
  | .drvOneDriver _ | .drvOnePort _ | .drvOneResolved _ | .drvMultiple _ => .ok state
  | .effOneDriver sig | .effOnePort sig | .effOneResolved sig =>
    .ok (runEffective design now state sig)
  | .effMultiple resolv =>
    let range := (design.resolved resolv).sigRange
    .ok (if (state.values range.first).active then
      range.toList.foldl (setEffectiveFromDriving design now) state
    else state)
  | .effActual sig =>
    match (design.decl sig).effective with
    | none => .error .nullAccess
    | some actual =>
      .ok (if (state.values sig).active then
        setEffectiveValue design now state sig (state.values actual).value
      else state)
  | .impForward _ | .impForwardBuild _ _ => .ok state
  | .impGuard sig => .ok (runGuard design now state sig)
  | .impStable sig => .ok (runStableQuiet design now state sig (anyPortEvent design state sig))
  | .impQuiet sig => .ok (runStableQuiet design now state sig (anyPortActive design state sig))
  | .impTransaction sig => .ok (runTransaction design now state sig)
  | .impDelayed sig => delayedImplicitProcess design now (runEffective design now state sig) sig
  | .inConversion conv => .ok (setConversionActivity design state conv)
  | .outConversion _ => .ok state
  | .propEnd => .ok state
  | .drvError => .error (.internalError "run_propagation(2)")

/-- One iteration of the loop of `Run_Propagation`. -/
def runCell (state : SignalState) (cell : PropagationCell) : Except GrtError SignalState := do
  let state ← runDriving design now state cell
  runEffectiveValue design now state cell

/-- `Run_Propagation`. -/
def runPropagation (state : SignalState) (start : Nat) : Except GrtError SignalState :=
  (design.cells start).foldlM (runCell design now) state

/-- `Reset_Active_Flag`. -/
def SignalState.resetActiveFlag (state : SignalState) : SignalState :=
  { state with
    values := fun sig =>
      if sig ∈ state.clearList then { state.values sig with active := false, event := false }
      else state.values sig
    clearList := [] }

/-- The loop of `Update_Signals` over the forced signals. -/
def updateForced (state : SignalState) : List ForceValue → SignalState
  | [] => { state with forceValues := [] }
  | force :: forced =>
    let state := state.markActive now force.sig
    let state :=
      if force.driving then
        setEffectiveFromDriving design now (state.setDrivingValue force.sig force.val) force.sig
      else setEffectiveValue design now state force.sig force.val
    updateForced state forced

/-- Run the cells of a net, unless they have been run in this cycle. The signal is then put on the
active chain, so that the flag will be cleared. -/
def updateNet (state : SignalState) (sig : SignalId) (net : Nat) : Except GrtError SignalState :=
  if state.updated net then .ok state
  else do
    let state := { state with updated := update state.updated net true }
    let state ← runPropagation design now state (net + 1)
    .ok (state.addActiveChain sig)

/-- `Update_Signals`, for one signal of the active chain. -/
def updateSignal (state : SignalState) (sig : SignalId) : Except GrtError SignalState :=
  match design.net sig with
  | .netOneDriver =>
    -- This signal is active.
    let state := state.markActive now sig
    match state.drivers sig with
    | [] => .error .nullAccess
    | driver :: drivers => do
      let (kind, driver) ← driver.consume
      let state := state.setDrivers sig (driver :: drivers)
      match kind with
      | .value val =>
        .ok (setEffectiveFromDriving design now (state.setDrivingValue sig val) sig)
      | .direct => .error (.internalError "update_signals: trans_direct")
      | .null => .error (.error "null transaction")
      | .error file line => .error (errorTransError file line)
  | .netOneDirect =>
    let state := (state.markActive now sig).clearDirectActive sig
    match state.drivers sig with
    | [] => .error .nullAccess
    | driver :: drivers => do
      let driver' ← driver.assignFirst driver.valPtr
      let state := (state.setDrivingValue sig driver.valPtr).setDrivers sig (driver' :: drivers)
      .ok (setEffectiveFromDriving design now state sig)
  | .netOneResolved => do
    -- This signal is active.
    let state := (state.markActive now sig).clearDirectActive sig
    let (_, drivers) ← updateDrivers now (state.drivers sig)
    match (design.decl sig).resolv with
    | none => .error .nullAccess
    | some resolv => do
      let state ← computeResolvedSignal design (state.setDrivers sig drivers) resolv
      .ok (setEffectiveFromDriving design now state sig)
  | .noSignalNet => .error (.internalError "update_signals: no_signal_net")
  | .propagation net => updateNet design now (state.clearDirectActive sig) sig net

/-- `Sig.Link := null`. -/
def SignalState.unlink (state : SignalState) (sig : SignalId) : SignalState :=
  { state with link := update state.link sig none }

/-- `Update_Signals`: for each active signal. -/
def updateActive : Nat → SignalState → SignalPtr → Except GrtError SignalState
  | _, state, none => .ok state
  | 0, _, some _ => .error .loopBound
  | fuel + 1, state, some sig => do
    let next := state.link sig
    let state ← updateSignal design now (state.unlink sig) sig
    match next with
    | none => .error .nullAccess
    | some next => updateActive fuel state next

/-- `Update_Signals`: implicit signals (forwarded). -/
def updateImplicit : Nat → SignalState → Except GrtError SignalState
  | 0, _ => .error .loopBound
  | fuel + 1, state =>
    match state.implicitChain with
    | none => .ok state
    | some sig =>
      match state.link sig with
      | none => .ok state
      | some next =>
        match design.net sig with
        | .propagation net => do
          let state ← updateNet design now ({ state with implicitChain := next }.unlink sig) sig net
          updateImplicit fuel state
        | _ =>
          -- The table has no such entry.
          .error .nullAccess

/-- The transaction of an implicit signal is due in the next delta cycle. -/
def SignalState.attrDue (state : SignalState) (sig : SignalId) : Bool :=
  (design.decl sig).modeSig.isForward &&
    match (state.attrTrans sig).pending with
    | [] => false
    | next :: _ => next.time = now

/-- `Propagation.Table (Sig.Net).Updated := False`. -/
def SignalState.clearUpdated (state : SignalState) (sig : SignalId) : SignalState :=
  match design.net sig with
  | .propagation net => { state with updated := update state.updated net false }
  | _ => state

/-- Un-mark updated, for one signal. Maybe put it on the chain of implicit signals, if it will be active
during the next cycle. -/
def unmarkSignal (state : SignalState) (sig : SignalId) : SignalState :=
  let state := (state.clearUpdated design sig).unlink sig
  if state.attrDue design now sig then
    { state with
      link := update state.link sig (some state.implicitChain)
      implicitChain := some sig }
  else state

/-- `Update_Signals`: un-mark updated. -/
def unmarkUpdated : Nat → SignalState → SignalPtr → Except GrtError SignalState
  | _, state, none => .ok state
  | 0, _, some _ => .error .loopBound
  | fuel + 1, state, some sig =>
    match state.link sig with
    | none => .ok state
    | some next => unmarkUpdated fuel (unmarkSignal design now state sig) next

/-- `Update_Signals`. -/
def updateSignals (state : SignalState) : Except GrtError SignalState := do
  let state := state.resetActiveFlag
  let state := updateForced design now state state.forceValues
  let active := state.activeChain
  let state ← updateActive design now (design.count + 1) { state with activeChain := none } active
  let state ← updateImplicit design now (design.count + design.propagation.length + 1) state
  let active := state.activeChain
  unmarkUpdated design now (design.count + 1) { state with activeChain := none } active

end Ghdl.Grt
