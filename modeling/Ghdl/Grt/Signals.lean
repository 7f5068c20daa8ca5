import Ghdl.Grt.Driver

/-!
# Signals and signal assignments

`Grt.Signals`: the signals of a design and what a process does to them. Elaboration fixes the
`Design`; the simulation changes the `SignalState`, one map for each field of `Ghdl_Signal`.

Three chains share the field `Link`: the active chain, the chain of implicit signals, and the chain
that `Find_Next_Time` builds. All end with `Signal_End`, which is on none of them; so a null `Link`
marks a signal that is on no chain. `Clear_List` is held as a list.
-/

namespace Ghdl.Grt

open Function

/-- `Sig_Table_Index`. -/
abbrev SignalId := Nat

/-- A `Ghdl_Signal_Ptr` of a chain: a signal of the table, or `Signal_End` for `none`. -/
abbrev SignalPtr := Option SignalId

/-- `Kind_Signal_Type`. -/
inductive KindSignalType where
  | no | register | bus
  deriving DecidableEq, Repr

/-- `Sig_Table_Range`. -/
structure SigTableRange where
  /-- `First`. -/
  first : SignalId
  /-- `Last`. -/
  last : SignalId
  deriving DecidableEq, Repr

/-- The signals of a range, in order. -/
def SigTableRange.toList (range : SigTableRange) : List SignalId :=
  List.range' range.first (range.last + 1 - range.first)

/-- `Resolved_Signal_Type`. The resolution procedure is compiled code: from the values of the
sources of each signal of the range, it computes their driving values. -/
structure ResolvedSignal where
  /-- `Sig_Range`. -/
  sigRange : SigTableRange
  /-- `Resolv_Proc`. -/
  resolvProc : List (List ValueUnion) → List ValueUnion
  /-- `Disconnect_Time`. -/
  disconnectTime : Int

/-- `Sig_Conversion_Type`. The conversion function is compiled code: from the driving and effective
values of the sources it computes those of the destinations. -/
structure SigConversion where
  /-- `Func`. -/
  func : List (ValueUnion × ValueUnion) → List (ValueUnion × ValueUnion)
  /-- `Src`. -/
  src : SigTableRange
  /-- `Dest`. -/
  dest : SigTableRange

/-- What elaboration fixes of a `Ghdl_Signal`. -/
structure SignalDecl where
  /-- `Mode`. -/
  mode : ModeType
  /-- `S.Mode_Sig`. -/
  modeSig : ModeSignalType
  /-- `Flags.Sig_Kind`. -/
  sigKind : KindSignalType := .no
  /-- `Has_Active`. -/
  hasActive : Bool := false
  /-- `S.Nbr_Drivers`. -/
  nbrDrivers : Nat := 0
  /-- `Ports`. -/
  ports : List SignalId := []
  /-- `S.Effective`. -/
  effective : Option SignalId := none
  /-- `S.Resolv`, as an index into the resolvers of the design. -/
  resolv : Option Nat := none
  /-- `S.Conv`, as an index into the conversions of the design. -/
  conv : Option Nat := none
  /-- `S.Time`. -/
  time : Int := 0
  /-- `S.Guard_Func`: compiled code, which reads the values of signals. -/
  guardFunc : (SignalId → ValueUnion) → Bool := fun _ => false

/-- `Propagation_Type`, an elementary propagation computation. A resolver or a conversion is given by
its index. -/
inductive PropagationCell where
  | drvError
  | drvOneDriver (sig : SignalId)
  | effOneDriver (sig : SignalId)
  | drvOnePort (sig : SignalId)
  | effOnePort (sig : SignalId)
  | drvOneResolved (sig : SignalId)
  | effOneResolved (sig : SignalId)
  | drvMultiple (resolv : Nat)
  | effMultiple (resolv : Nat)
  | effActual (sig : SignalId)
  | impForward (sig : SignalId)
  | impForwardBuild (src targ : SignalId)
  | impGuard (sig : SignalId)
  | impStable (sig : SignalId)
  | impQuiet (sig : SignalId)
  | impTransaction (sig : SignalId)
  | impDelayed (sig : SignalId)
  | inConversion (conv : Nat)
  | outConversion (conv : Nat)
  | propEnd
  deriving DecidableEq, Repr

/-- `Signal_Net_Type`. -/
inductive SignalNet where
  | noSignalNet
  | netOneDriver
  | netOneDirect
  | netOneResolved
  /-- The net whose cells follow the `Prop_End` cell at this index of the propagation table. -/
  | propagation (start : Nat)
  deriving DecidableEq, Repr

/-- An elaborated design, as `Order_All_Signals` leaves it. -/
structure Design where
  /-- The number of signals of `Sig_Table`. -/
  count : Nat
  /-- `Sig_Table.Table (I)`. -/
  decl : SignalId → SignalDecl
  /-- `Sig_Table.Table (I).Net`. -/
  net : SignalId → SignalNet
  /-- `Propagation`. The table is indexed from 1. -/
  propagation : List PropagationCell
  /-- The resolved signals. -/
  resolved : Nat → ResolvedSignal
  /-- The conversions. -/
  conversion : Nat → SigConversion

/-- The cells from START to the next `Prop_End` cell of the propagation table. -/
def Design.cells (design : Design) (start : Nat) : List PropagationCell :=
  (design.propagation.drop (start - 1)).takeWhile (· ≠ .propEnd)

/-- The fields of a signal that depend on its value. -/
structure SignalValues where
  /-- `Driving_Value`. -/
  drivingValue : ValueUnion
  /-- `Last_Value`. -/
  lastValue : ValueUnion
  /-- `Value_Ptr.all`. -/
  value : ValueUnion
  /-- `Last_Event`. -/
  lastEvent : Int := -StdTime.last
  /-- `Last_Active`. -/
  lastActive : Int := -StdTime.last
  /-- `Event`. -/
  event : Bool := false
  /-- `Active`. -/
  active : Bool := false
  /-- `Flags.RO_Event`. -/
  roEvent : Bool := false
  deriving DecidableEq, Repr

/-- `S.Attr_Trans`: the current transaction of an implicit signal and those projected to occur. No
other signal points into the list. -/
structure AttrTrans where
  /-- The transaction at `Attr_Trans`. -/
  current : Transaction
  /-- The transactions after it. -/
  pending : List Transaction
  deriving DecidableEq, Repr

/-- `Action_List`: a process to wake up. -/
structure ActionCell where
  /-- The process is not sensitized. -/
  dynamic : Bool
  /-- `Proc`. -/
  proc : ProcId
  deriving DecidableEq, Repr

/-- `Force_Value`: whether the driving value is forced, or the effective value only. -/
structure ForceValue where
  /-- `Kind = Force_Driving`. -/
  driving : Bool
  /-- `Sig`. -/
  sig : SignalId
  /-- `Val`. -/
  val : ValueUnion
  deriving DecidableEq, Repr

/-- What the simulation changes of the signals. -/
structure SignalState where
  /-- The values and flags of each signal. -/
  values : SignalId → SignalValues
  /-- `Link`. -/
  link : SignalId → Option SignalPtr
  /-- `Flink`. -/
  flink : SignalId → Option SignalPtr
  /-- `Flags.Is_Direct_Active`. -/
  directActive : SignalId → Bool
  /-- `S.Drivers`. -/
  drivers : SignalId → List Driver
  /-- `S.Attr_Trans`. -/
  attrTrans : SignalId → AttrTrans
  /-- `Event_List`. -/
  eventList : SignalId → List ActionCell
  /-- `Ghdl_Signal_Active_Chain`. -/
  activeChain : SignalPtr := none
  /-- `Ghdl_Implicit_Signal_Active_Chain`. -/
  implicitChain : SignalPtr := none
  /-- `Next_Signal_Active_Chain`. -/
  nextChain : SignalPtr := none
  /-- `Future_List`. -/
  futureList : SignalPtr := none
  /-- `Clear_List`. -/
  clearList : List SignalId := []
  /-- `Force_Value_First`. -/
  forceValues : List ForceValue := []
  /-- `Propagation.Table (I).Updated`. -/
  updated : Nat → Bool
  /-- The processes that were passed to `Resume_Process`, the oldest first. -/
  resumed : List ProcId := []

namespace SignalState

/-- Put SIGN on the active chain, if it is on no chain. -/
def insertActive (state : SignalState) (sign : SignalId) : SignalState :=
  if state.link sign = none then
    { state with
      link := update state.link sign (some state.activeChain)
      activeChain := some sign }
  else state

/-- Put SIGN on the future list, if it is not on it. -/
def insertFuture (state : SignalState) (sign : SignalId) : SignalState :=
  if state.flink sign = none then
    { state with
      flink := update state.flink sign (some state.futureList)
      futureList := some sign }
  else state

/-- `Sign.S.Drivers (Drv) := Driver`. -/
def setDriver (state : SignalState) (sign : SignalId) (drv : Nat) (driver : Driver) : SignalState :=
  { state with
    drivers := update state.drivers sign ((state.drivers sign).set drv driver) }

/-- `Find_Driver`: the index of the driver of the current process. -/
def findDriver (state : SignalState) (proc : ProcId) (sign : SignalId) : Except GrtError Nat :=
  if state.drivers sign = [] then
    .error (.error "assignment to a signal without any driver")
  else
    match (state.drivers sign).findIdx? (·.proc = proc) with
    | some drv => .ok drv
    | none => .error (.error "assignment to a signal without a driver for the process")

/-- The loop of `Has_Transaction_In_Next_Delta` over the drivers of a signal. The pointer
`First_Trans.Next` is dereferenced without a test. -/
def hasTransactionIn (now : Int) : List Driver → Except GrtError Bool
  | [] => .ok false
  | driver :: drivers => do
    let first ← driver.heap.read (some driver.firstTrans)
    let trans ← driver.heap.read first.next
    if !trans.kind.isDirect && trans.time = now then .ok true else hasTransactionIn now drivers

/-- `Has_Transaction_In_Next_Delta`. -/
def hasTransactionInNextDelta (state : SignalState) (now : Int) (sign : SignalId) :
    Except GrtError Bool :=
  if state.directActive sign then .ok true else hasTransactionIn now (state.drivers sign)

/-- In the middle of the chain: `while Prev.Link /= Sign loop Prev := Prev.Link; end loop`. After
`Signal_End` comes the null pointer. -/
def findPrev (link : SignalId → Option SignalPtr) (sign : SignalId) :
    Nat → SignalPtr → Except GrtError SignalId
  | 0, _ => .error .loopBound
  | _ + 1, none => .error .nullAccess
  | fuel + 1, some prev =>
    match link prev with
    | none => .error .nullAccess
    | some next => if next = some sign then .ok prev else findPrev link sign fuel next

/-- Remove SIGN from the active chain. -/
def removeActive (state : SignalState) (count : Nat) (sign : SignalId) :
    Except GrtError SignalState :=
  match state.link sign with
  | none => .ok state
  | some next =>
    if state.activeChain = some sign then
      .ok { state with activeChain := next, link := update state.link sign none }
    else do
      let prev ← findPrev state.link sign (count + 1) state.activeChain
      .ok { state with
        link := update (update state.link prev (some next)) sign none }

end SignalState

/-- `Error_Trans_Error`. -/
def errorTransError (file : String) (line : Int) : GrtError :=
  .error ("range check error on signal at " ++ file ++ ":" ++ toString line)

/-- The check that ends `Ghdl_Signal_Start_Assign`. -/
def Driver.checkLast (driver : Driver) : Except GrtError Unit := do
  let last ← driver.heap.read (some driver.lastTrans)
  if last.next ≠ none then .error (.error "ghdl_signal_start_assign internal_error") else .ok ()

/-- An assignment through a direct driver: the variable of the driver is assigned. -/
def SignalState.assignDirect (state : SignalState) (sign : SignalId) (drv : Nat) (driver : Driver)
    (trans : TransactionKind) (after : Int) : Except GrtError SignalState :=
  if after ≠ 0 then .error (.internalError "direct assign with non-0 after")
  else
    match trans with
    | .value val => .ok (state.setDriver sign drv { driver with valPtr := val, assigned := true })
    | .error file line => .error (errorTransError file line)
    | _ => .error (.internalError "direct assign with non-value")

variable (design : Design) (now : Int) (proc : ProcId)

/-- `Ghdl_Signal_Start_Assign`, called by the process PROC at the time NOW. -/
def ghdlSignalStartAssign (state : SignalState) (sign : SignalId) (reject : Int)
    (trans : TransactionKind) (after : Int) : Except GrtError SignalState := do
  let drv ← state.findDriver proc sign
  if after < 0 then
    .error (.error "negative time expression in signal assignment")
  else do
    let state := if after = 0 then state.insertActive sign else state.insertFuture sign
    let assignTime := StdTime.add now after
    if assignTime < 0 then
      -- Beyond the future.
      .ok state
    else
      match (state.drivers sign)[drv]? with
      | none => .error .nullAccess
      | some driver => do
        let last ← driver.heap.read (some driver.lastTrans)
        if last.kind.isDirect then state.assignDirect sign drv driver trans after
        else do
          let driver ← driver.startAssign (design.decl sign).mode assignTime reject after trans
          let state := state.setDriver sign drv driver
          if 0 < reject ∧ state.link sign ≠ none then do
            let active ← state.hasTransactionInNextDelta now sign
            let state ← if active then .ok state else state.removeActive design.count sign
            driver.checkLast
            .ok state
          else do
            driver.checkLast
            .ok state

/-- `Ghdl_Signal_Next_Assign` and `Ghdl_Signal_Next_Assign_Error`. -/
def ghdlSignalNextAssign (state : SignalState) (sign : SignalId) (trans : TransactionKind)
    (after : Int) : Except GrtError SignalState := do
  let drv ← state.findDriver proc sign
  let state := if 0 < after then state.insertFuture sign else state
  match (state.drivers sign)[drv]? with
  | none => .error .nullAccess
  | some driver => do
    let driver ← driver.nextAssign now after trans
    .ok (state.setDriver sign drv driver)

/-- `Ghdl_Signal_Simple_Assign`: nothing is done for a value that a signal with one idle driver already
has, when no one asks for the activity of the signal. -/
def ghdlSignalSimpleAssign (state : SignalState) (sign : SignalId) (val : ValueUnion) :
    Except GrtError SignalState := do
  let idle ←
    if !(design.decl sign).hasActive && design.net sign = .netOneDriver &&
        valueEqual val (state.values sign).value (design.decl sign).mode then
      match (state.drivers sign)[0]? with
      | none => .error .nullAccess
      | some driver => do
        let first ← driver.heap.read (some driver.firstTrans)
        .ok (first.next = none : Bool)
    else .ok false
  if idle then .ok state
  else ghdlSignalStartAssign design now proc state sign 0 (.value val) 0

/-- `Ghdl_Signal_Start_Assign_Null`. -/
def ghdlSignalStartAssignNull (state : SignalState) (sign : SignalId) (reject after : Int) :
    Except GrtError SignalState :=
  if (design.decl sign).sigKind = .no then
    .error (.error "null transaction for a non-guarded target")
  else ghdlSignalStartAssign design now proc state sign reject .null after

/-- `Ghdl_Signal_Disconnect`. -/
def ghdlSignalDisconnect (state : SignalState) (sign : SignalId) : Except GrtError SignalState :=
  if (design.decl sign).sigKind = .no then
    .error (.error "null transaction for a non-guarded target")
  else
    match (design.decl sign).resolv with
    | none => .error .nullAccess
    | some resolv =>
      ghdlSignalStartAssign design now proc state sign (design.resolved resolv).disconnectTime .null
        (design.resolved resolv).disconnectTime

/-- `Ghdl_Signal_Direct_Assign`, after the process has assigned the variable of its driver. -/
def ghdlSignalDirectAssign (state : SignalState) (sign : SignalId) : SignalState :=
  { state.insertActive sign with directActive := update state.directActive sign true }

end Ghdl.Grt
