import Ghdl.Grt.Signals

/-!
# The time of the next cycle, as far as signals go

`Grt.Signals`: `Find_Next_Time` looks for the earliest transaction of the signals on the future list,
and builds as it goes the chain of the signals that are active then. `Flush_Active_Chain` empties that
chain and `Update_Active_Chain` makes it the active chain.
-/

namespace Ghdl.Grt

namespace SignalState

/-- The loop of `Flush_Active_Chain`. -/
def flushFrom : Nat → (SignalId → Option SignalPtr) → SignalPtr →
    (SignalId → Option SignalPtr) × SignalPtr
  | _, link, none => (link, none)
  | 0, link, some sig => (link, some sig)
  | fuel + 1, link, some sig =>
    match link sig with
    | none => (link, some sig)
    | some next => flushFrom fuel (Function.update link sig none) next

/-- `Flush_Active_Chain`: remove all signals in the chain built for the next cycle. -/
def flushActiveChain (state : SignalState) (count : Nat) : SignalState :=
  let flushed := flushFrom (count + 1) state.link state.nextChain
  { state with link := flushed.1, nextChain := flushed.2 }

/-- Put SIG on the chain built for the next cycle. -/
def pushNext (state : SignalState) (sig : SignalId) : SignalState :=
  { state with
    link := Function.update state.link sig (some state.nextChain)
    nextChain := some sig }

/-- `Chain.Link /= null`: there is a signal before `Signal_End`. -/
def chainLinked (state : SignalState) : SignalPtr → Bool
  | none => false
  | some sig => state.link sig ≠ none

/-- `Update_Active_Chain`. -/
def updateActiveChain (state : SignalState) : SignalState :=
  { state with activeChain := state.nextChain, nextChain := none }

end SignalState

/-- `First_Trans.Next`, a transaction or null. -/
def Driver.nextTrans (driver : Driver) : Except GrtError (Option Transaction) := do
  let first ← driver.heap.read (some driver.firstTrans)
  match first.next with
  | none => .ok none
  | some next => do
    let cell ← driver.heap.read (some next)
    .ok (some cell.toTransaction)

variable (design : Design) (now : Int)

/-- The first test of `Check_Transaction`: a transaction at RES puts the signal on the chain, unless it is on
a chain; an earlier one starts the chain anew. -/
def considerTime (state : SignalState) (res : Int) (sig : SignalId) (time : Int) :
    SignalState × Int :=
  if time = res ∧ state.link sig = none then (state.pushNext sig, res)
  else if time < res then ((state.flushActiveChain design.count).pushNext sig, time)
  else (state, res)

/-- `Check_Transaction`. Activity of direct drivers is done through link. -/
def checkTransaction (state : SignalState) (res : Int) (sig : SignalId) :
    Option Transaction → Except GrtError (SignalState × Int)
  | none => .ok (state, res)
  | some next =>
    if next.kind.isDirect then .ok (state, res)
    else if (considerTime design state res sig next.time).2 = now then
      .error (.internalError "find_next_time(2)")
    else .ok (considerTime design state res sig next.time)

/-- `Check_Transaction` for each driver of a signal. -/
def checkDrivers (sig : SignalId) :
    List Driver → SignalState → Int → Except GrtError (SignalState × Int)
  | [], state, res => .ok (state, res)
  | driver :: drivers, state, res => do
    let trans ← driver.nextTrans
    let (state, res) ← checkTransaction design now state res sig trans
    checkDrivers sig drivers state res

/-- The loop of `Find_Next_Time`, for one signal of the future list. -/
def checkSignal (state : SignalState) (res : Int) (sig : SignalId) :
    Except GrtError (SignalState × Int) :=
  if (design.decl sig).modeSig.isUser then
    checkDrivers design now sig (state.drivers sig) state res
  else if (design.decl sig).modeSig.isForward then
    checkTransaction design now state res sig (state.attrTrans sig).pending.head?
  else .error (.internalError "find_next_time(3)")

/-- The loop of `Find_Next_Time` over the future list. -/
def checkFuture : Nat → SignalState → Int → SignalPtr → Except GrtError (SignalState × Int)
  | _, state, res, none => .ok (state, res)
  | 0, _, _, some _ => .error .loopBound
  | fuel + 1, state, res, some sig =>
    match state.flink sig with
    | none => .ok (state, res)
    | some next => do
      let (state, res) ← checkSignal design now state res sig
      checkFuture fuel state res next

/-- `Find_Next_Time`: the earliest of TN and the times of the transactions, or the current time when
the next cycle is a delta cycle. -/
def findNextTime (state : SignalState) (tn : Int) : Except GrtError (SignalState × Int) :=
  if state.chainLinked state.activeChain then .ok (state, now)
  else if state.forceValues ≠ [] then .ok (state, now)
  else if state.chainLinked state.implicitChain then .ok (state, now)
  else checkFuture design now (design.count + 1) state tn state.futureList

end Ghdl.Grt
