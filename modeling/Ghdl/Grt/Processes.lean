import Ghdl.Grt.Signals

/-!
# Processes and their timeouts

`Grt.Processes`: how a process suspends, and how it is resumed. The processes that wait for a timeout
are on a doubly linked chain; `Process_First_Timeout` caches the earliest timeout of the chain.
-/

namespace Ghdl.Grt

/-- `Process_State`. -/
inductive ProcessState where
  /-- Sensitized process: its state cannot change. -/
  | sensitized
  /-- Non-sensitized process, ready to run. -/
  | ready
  /-- Non-sensitized process being suspended, without sensitivity. -/
  | delayed
  /-- Non-sensitized process being suspended, with sensitivity. -/
  | wait
  /-- Non-sensitized process being awaked by a wait timeout, so that it exits from the wait statement
  without checking if the wait condition is true. -/
  | timeout
  /-- Non-sensitized process waiting until end. -/
  | dead
  deriving DecidableEq, Repr

/-- `Process_Type`. -/
structure Process where
  /-- `Resumed`: the process is in a table of processes to be run. -/
  resumed : Bool
  /-- `Postponed`. -/
  postponed : Bool
  /-- `State`. -/
  state : ProcessState
  /-- `Timeout`, or `Bad_Time`. -/
  timeout : Int
  /-- `Timeout_Chain_Next`. -/
  chainNext : Option ProcId
  /-- `Timeout_Chain_Prev`. -/
  chainPrev : Option ProcId
  /-- The signals of `Sensitivity`, the last added first. -/
  sensitivity : List SignalId
  deriving DecidableEq, Repr

/-- The state of `Grt.Processes`. -/
structure Processes where
  /-- The number of processes of `Process_Table`. -/
  count : Nat
  /-- `Process_Table.Table (I)`. -/
  proc : ProcId → Process
  /-- `Resume_Process_Table`, up to `Last_Resume_Process`. -/
  resumeTable : List ProcId
  /-- `Postponed_Resume_Process_Table`, up to `Last_Postponed_Resume_Process`. -/
  postponedTable : List ProcId
  /-- `Process_First_Timeout`. -/
  firstTimeout : Int
  /-- `Process_Timeout_Chain`. -/
  timeoutChain : Option ProcId

namespace Processes

/-- Update the record of a process. -/
def modify (procs : Processes) (p : ProcId) (f : Process → Process) : Processes :=
  { procs with proc := Function.update procs.proc p (f (procs.proc p)) }

/-- `Proc.State := State`. -/
def setState (procs : Processes) (p : ProcId) (state : ProcessState) : Processes :=
  procs.modify p fun proc => { proc with state }

/-- `Proc.Timeout := Timeout`. -/
def setTimeout (procs : Processes) (p : ProcId) (timeout : Int) : Processes :=
  procs.modify p fun proc => { proc with timeout }

/-- `Resume_Process`. -/
def resumeProcess (procs : Processes) (p : ProcId) : Processes :=
  if (procs.proc p).resumed then procs
  else
    let procs' := procs.modify p fun proc => { proc with resumed := true }
    if (procs.proc p).postponed then
      { procs' with postponedTable := procs.postponedTable ++ [p] }
    else { procs' with resumeTable := procs.resumeTable ++ [p] }

/-- `Update_Process_First_Timeout`. -/
def updateProcessFirstTimeout (procs : Processes) (p : ProcId) : Processes :=
  let procs :=
    if (procs.proc p).timeout < procs.firstTimeout then
      { procs with firstTimeout := (procs.proc p).timeout }
    else procs
  -- Append PROC on Process_Timeout_Chain.
  let linked := procs.modify p fun proc =>
    { proc with chainNext := procs.timeoutChain, chainPrev := none }
  let linked :=
    match procs.timeoutChain with
    | none => linked
    | some head => linked.modify head fun proc => { proc with chainPrev := some p }
  { linked with timeoutChain := some p }

/-- `Remove_Process_From_Timeout_Chain`. -/
def removeProcessFromTimeoutChain (procs : Processes) (p : ProcId) : Processes :=
  let unlinked :=
    match (procs.proc p).chainPrev with
    | some prev =>
      procs.modify prev fun proc => { proc with chainNext := (procs.proc p).chainNext }
    | none =>
      if procs.timeoutChain = some p then
        -- Only if Proc is in the chain.
        { procs with timeoutChain := (procs.proc p).chainNext }
      else procs
  let unlinked :=
    match (unlinked.proc p).chainNext with
    | some next =>
      (unlinked.modify next fun proc => { proc with chainPrev := (unlinked.proc p).chainPrev }).modify
        p fun proc => { proc with chainNext := none }
    | none => unlinked
  -- Be sure a second call won't corrupt the chain.
  unlinked.modify p fun proc => { proc with chainPrev := none }

/-- The loop of `Ghdl_Process_Wait_Close` over the timeout chain. -/
def nextTimeoutFrom (procs : Processes) : Nat → Int → Option ProcId → Except GrtError Int
  | _, nextTimeout, none => .ok nextTimeout
  | 0, _, some _ => .error .loopBound
  | fuel + 1, nextTimeout, some p =>
    let proc := procs.proc p
    let nextTimeout :=
      if (proc.state = .delayed ∨ proc.state = .wait) ∧ 0 < proc.timeout ∧
          proc.timeout < nextTimeout then proc.timeout
      else nextTimeout
    procs.nextTimeoutFrom fuel nextTimeout proc.chainNext

/-- `Ghdl_Process_Wait_Close`, after the process was removed from the event lists. -/
def waitClose (procs : Processes) (p : ProcId) : Except GrtError Processes := do
  -- Remove Proc from the timeout list.
  let procs := procs.removeProcessFromTimeoutChain p
  -- This is necessary when the process has been woken-up by an event before the timeout triggers.
  let procs ←
    if procs.firstTimeout = (procs.proc p).timeout then do
      let procs := procs.setTimeout p StdTime.bad
      let nextTimeout ← procs.nextTimeoutFrom (procs.count + 1) StdTime.last procs.timeoutChain
      .ok { procs with firstTimeout := nextTimeout }
    else .ok (procs.setTimeout p StdTime.bad)
  .ok (procs.setState p .ready)

/-- `Ghdl_Process_Wait_Set_Timeout`. -/
def waitSetTimeout (procs : Processes) (now : Int) (p : ProcId) (time : Int) :
    Except GrtError Processes :=
  if time < 0 then .error (.error "negative timeout clause")
  else .ok ((procs.setTimeout p (StdTime.add now time)).updateProcessFirstTimeout p)

/-- `Ghdl_Process_Wait_Suspend`. -/
def waitSuspend (procs : Processes) (p : ProcId) : Except GrtError Processes :=
  if (procs.proc p).state = .sensitized then
    .error (.error "wait statement in a sensitized process")
  else .ok (procs.setState p .wait)

/-- `Ghdl_Process_Wait_Exit`. -/
def waitExit (procs : Processes) (p : ProcId) : Except GrtError Processes :=
  if (procs.proc p).state = .sensitized then
    .error (.error "wait statement in a sensitized process")
  else .ok (procs.setState p .dead)

/-- `Ghdl_Process_Wait_Timeout`. -/
def waitTimeout (procs : Processes) (now : Int) (p : ProcId) (time : Int) :
    Except GrtError Processes :=
  if (procs.proc p).state = .sensitized then
    .error (.error "wait statement in a sensitized process")
  else if time < 0 then .error (.error "negative timeout clause")
  else
    let procs := procs.setState p .delayed
    if time ≤ StdTime.sub StdTime.last now then
      .ok ((procs.setTimeout p (StdTime.add now time)).updateProcessFirstTimeout p)
    else
      -- Delay past the end of the times.
      .ok (procs.setTimeout p StdTime.last)

/-- `Ghdl_Process_Delay`. -/
def processDelay (procs : Processes) (now : Int) (p : ProcId) (del : Nat) : Processes :=
  ((procs.setTimeout p (StdTime.add now del)).setState p .delayed).updateProcessFirstTimeout p

/-- The loop of `Simulation_Cycle` that awakes the processes whose timeout is the current time. -/
def awakeFrom (now : Int) : Nat → Processes → Int → Option ProcId → Except GrtError (Processes × Int)
  | _, procs, tn, none => .ok (procs, tn)
  | 0, _, _, some _ => .error .loopBound
  | fuel + 1, procs, tn, some p =>
    let proc := procs.proc p
    let later := if 0 < proc.timeout ∧ proc.timeout < tn then proc.timeout else tn
    match proc.state with
    | .sensitized | .dead => awakeFrom now fuel procs tn proc.chainNext
    | .delayed =>
      if proc.timeout = now then
        awakeFrom now fuel
          ((((procs.setTimeout p StdTime.bad).removeProcessFromTimeoutChain p).resumeProcess p).setState
            p .ready) tn proc.chainNext
      else awakeFrom now fuel procs later proc.chainNext
    | .wait =>
      if proc.timeout = now then
        awakeFrom now fuel
          (((procs.setTimeout p StdTime.bad).resumeProcess p).setState p .timeout) tn proc.chainNext
      else awakeFrom now fuel procs later proc.chainNext
    | .timeout | .ready => .error (.internalError "process in timeout")

/-- `Simulation_Cycle`: if there are processes to awake, they are resumed. -/
def awake (procs : Processes) (now : Int) : Except GrtError Processes :=
  if now = procs.firstTimeout then do
    let (procs, tn) ← awakeFrom now (procs.count + 1) procs StdTime.last procs.timeoutChain
    .ok { procs with firstTimeout := tn }
  else .ok procs

end Processes

end Ghdl.Grt
