import Ghdl.Grt.NextTime
import Ghdl.Grt.Processes
import Ghdl.Grt.Propagation

/-!
# The simulation cycle

`Grt.Processes`: `Initialization_Phase` and `Simulation_Cycle`, as a system that takes step after
step. The code of processes and callbacks is compiled or foreign: it is the environment, which calls
the run time while a process or a callback is running. A `Phase` says where the kernel is in the
cycle, a `Label` what happens next, and `Kernel.step` what it does to the kernel.
-/

namespace Ghdl.Grt

open Function

/-- `Callback_Mode`, for the lists of callbacks without a time. -/
inductive CallbackMode where
  | oneshot | repeated
  deriving DecidableEq, Repr

/-- The lists of callbacks of `Grt.Hooks` that the kernel calls. -/
inductive Hook where
  | nextTimeStep
  | signalsUpdated
  | startOfProcesses
  | lastKnownDelta
  | endOfTimeStep
  deriving DecidableEq, Repr

/-- The registered callbacks. -/
structure Callbacks where
  /-- The modes of the callbacks of each list, in the order of their calls. -/
  hooks : Hook → List CallbackMode
  /-- The times of the callbacks of `Cb_After_Delay`. -/
  afterDelay : List Int
  /-- `Cb_After_Delay.First_Timeout`. -/
  firstTimeout : Int

namespace Callbacks

/-- `Register_Callback`. -/
def registerCallback (callbacks : Callbacks) (hook : Hook) (mode : CallbackMode) : Callbacks :=
  { callbacks with
    hooks := update callbacks.hooks hook (callbacks.hooks hook ++ [mode]) }

/-- `Register_Callback_At`: insert after timeouts before T. -/
def registerCallbackAt (callbacks : Callbacks) (t : Int) : Callbacks :=
  { callbacks with
    afterDelay := callbacks.afterDelay.takeWhile (· ≤ t) ++
      t :: callbacks.afterDelay.dropWhile (· ≤ t)
    firstTimeout :=
      if callbacks.afterDelay.takeWhile (· ≤ t) = [] then t else callbacks.firstTimeout }

/-- `Delete_Callback`: the callback is removed at the next call. -/
def deleteCallback (callbacks : Callbacks) (hook : Hook) (index : Nat) : Callbacks :=
  { callbacks with
    hooks := update callbacks.hooks hook ((callbacks.hooks hook).set index .oneshot) }

/-- `Has_Callbacks`. -/
def hasCallbacks (callbacks : Callbacks) (hook : Hook) : Bool := callbacks.hooks hook ≠ []

end Callbacks

/-- Where the kernel is in `Initialization_Phase` or `Simulation_Cycle`. -/
inductive Phase where
  /-- `Simulation_Cycle` is called next. -/
  | simulationCycle
  /-- `Call_Callbacks`: the callback at the index KEPT is running, and LEFT are to be called, it
  included. -/
  | hook (hook : Hook) (kept left : Nat)
  /-- `Call_Time_Callbacks`, between two callbacks or during one. -/
  | afterDelay (running : Bool)
  /-- `Update_Signals` is called next. -/
  | updateSignals
  /-- The processes in timeout are awaked next. -/
  | timeouts
  /-- `Run_Processes`: these are to be run. -/
  | runProcesses (postponed : Bool) (table : List ProcId)
  /-- `Run_Processes`: a process is running. -/
  | process (proc : ProcId) (postponed : Bool) (table : List ProcId)
  /-- `Compute_Next_Time` is called next, after the nonpostponed processes. -/
  | computeNextTime
  /-- The simulation is finished. -/
  | finished
  deriving DecidableEq, Repr

/-- The state of the simulation kernel. -/
structure Kernel where
  /-- `Current_Time`. -/
  now : Int
  /-- `Next_Time`. -/
  nextTime : Int
  /-- `Current_Delta`. -/
  currentDelta : Nat
  /-- The signals. -/
  signals : SignalState
  /-- The processes. -/
  processes : Processes
  /-- The callbacks. -/
  callbacks : Callbacks
  /-- The kernel is in `Initialization_Phase`. -/
  initialization : Bool
  /-- The status of `Run_Processes` is `Run_Resumed`. -/
  ranProcesses : Bool
  /-- Where the kernel is. -/
  phase : Phase

namespace Kernel

variable (design : Design)

/-- Call the callbacks of a list. -/
def callCallbacks (kernel : Kernel) (hook : Hook) : Kernel :=
  { kernel with phase := .hook hook 0 (kernel.callbacks.hooks hook).length }

/-- `Compute_Next_Time`. -/
def computeNextTime (kernel : Kernel) : Except GrtError (Kernel × Int) :=
  let res := min (min StdTime.last kernel.processes.firstTimeout) kernel.callbacks.firstTimeout
  if res = kernel.now then .ok (kernel, res)
  else do
    let (signals, res) ← findNextTime design kernel.now kernel.signals res
    .ok ({ kernel with signals }, res)

/-- `Flush_Active_Chain`. -/
def flushActiveChain (kernel : Kernel) : Kernel :=
  { kernel with signals := kernel.signals.flushActiveChain design.count }

/-- The end of `Initialization_Phase`. -/
def endInitialization (kernel : Kernel) (tn : Int) : Kernel :=
  { kernel with
    nextTime := tn
    signals := if tn ≠ 0 then kernel.signals.updateActiveChain else kernel.signals
    currentDelta := 0
    initialization := false
    phase := .simulationCycle }

/-- The end of a simulation cycle that the next one follows without a delay. -/
def endDelta (kernel : Kernel) : Kernel :=
  if kernel.now = StdTime.last ∧ kernel.ranProcesses = false then { kernel with phase := .finished }
  else { kernel with currentDelta := kernel.currentDelta + 1, phase := .simulationCycle }

/-- The end of a simulation cycle, TN being the time of the next one. -/
def endTimeStep (kernel : Kernel) (tn : Int) : Kernel :=
  { kernel with
    signals := kernel.signals.updateActiveChain
    nextTime := tn
    currentDelta := 0
    phase := .simulationCycle }

/-- The part of `Simulation_Cycle` after the postponed processes. -/
def endOfTimeStep (kernel : Kernel) (tn : Int) : Kernel :=
  if kernel.callbacks.hasCallbacks .endOfTimeStep then kernel.callCallbacks .endOfTimeStep
  else kernel.endTimeStep tn

/-- The part of `Simulation_Cycle` from the test of the last known delta cycle on. -/
def afterKnownDelta (kernel : Kernel) (tn : Int) : Kernel :=
  if tn ≠ kernel.now then
    if kernel.processes.postponedTable ≠ [] then
      let kernel := kernel.flushActiveChain design
      { kernel with
        processes := { kernel.processes with postponedTable := [] }
        ranProcesses := true
        phase := .runProcesses true kernel.processes.postponedTable }
    else kernel.endOfTimeStep tn
  else kernel.endDelta

/-- The part of the cycle after `Compute_Next_Time`. -/
def afterNextTime (kernel : Kernel) (tn : Int) : Kernel :=
  if kernel.initialization then
    if tn ≠ 0 ∧ kernel.callbacks.hasCallbacks .lastKnownDelta then
      kernel.callCallbacks .lastKnownDelta
    else kernel.endInitialization tn
  else if tn ≠ kernel.now ∧ kernel.callbacks.hasCallbacks .lastKnownDelta then
    kernel.callCallbacks .lastKnownDelta
  else kernel.afterKnownDelta design tn

/-- What follows the callbacks of a list. -/
def afterHook (kernel : Kernel) : Hook → Except GrtError Kernel
  | .nextTimeStep =>
    .ok { kernel with
      phase :=
        if kernel.now = kernel.callbacks.firstTimeout then .afterDelay false else .updateSignals }
  | .signalsUpdated => .ok { kernel with phase := .timeouts }
  | .startOfProcesses =>
    .ok { kernel with
      processes := { kernel.processes with resumeTable := [] }
      ranProcesses := kernel.processes.resumeTable ≠ []
      phase := .runProcesses false kernel.processes.resumeTable }
  | .lastKnownDelta => do
    let (kernel, tn) ← (kernel.flushActiveChain design).computeNextTime design
    .ok (if kernel.initialization then kernel.endInitialization tn
      else kernel.afterKnownDelta design tn)
  | .endOfTimeStep => do
    let (kernel, tn) ← kernel.computeNextTime design
    .ok (kernel.endTimeStep tn)

/-- A callback returns: the cell of a callback to be called once is freed. -/
def returnCallback (kernel : Kernel) (hook : Hook) (kept left : Nat) : Kernel :=
  if (kernel.callbacks.hooks hook)[kept]? = some .oneshot then
    { kernel with
      callbacks := { kernel.callbacks with
        hooks := update kernel.callbacks.hooks hook
          ((kernel.callbacks.hooks hook).eraseIdx kept) }
      phase := .hook hook kept left }
  else { kernel with phase := .hook hook (kept + 1) left }

/-- The loop of `Call_Time_Callbacks`: the first callback is called if it is due. -/
def callTimeCallback (kernel : Kernel) : Kernel :=
  match kernel.callbacks.afterDelay with
  | [] =>
    -- No more callback.
    { kernel with
      callbacks := { kernel.callbacks with firstTimeout := StdTime.last }
      phase := .updateSignals }
  | t :: times =>
    if kernel.now < t then
      -- No more callbacks for current time.
      { kernel with
        callbacks := { kernel.callbacks with firstTimeout := t }
        phase := .updateSignals }
    else
      { kernel with
        callbacks := { kernel.callbacks with afterDelay := times }
        phase := .afterDelay true }

/-- `Resume_Process` for every process that the update of the signals resumed. -/
def resumeProcesses (kernel : Kernel) : Kernel :=
  { kernel with
    signals := { kernel.signals with resumed := [] }
    processes := kernel.signals.resumed.foldl Processes.resumeProcess kernel.processes }

/-- What the kernel does next. -/
def tick (kernel : Kernel) : Except GrtError Kernel :=
  match kernel.phase with
  | .simulationCycle =>
    let kernel := { kernel with now := kernel.nextTime }
    if kernel.currentDelta = 0 then .ok (kernel.callCallbacks .nextTimeStep)
    else kernel.afterHook design .nextTimeStep
  | .hook hook _ 0 => kernel.afterHook design hook
  | .hook hook kept (left + 1) => .ok (kernel.returnCallback hook kept left)
  | .afterDelay false => .ok kernel.callTimeCallback
  | .afterDelay true => .ok { kernel with phase := .afterDelay false }
  | .updateSignals => do
    let signals ← updateSignals design kernel.now kernel.signals
    .ok (({ kernel with signals }.resumeProcesses).callCallbacks .signalsUpdated)
  | .timeouts => do
    let processes ← kernel.processes.awake kernel.now
    .ok ({ kernel with processes }.callCallbacks .startOfProcesses)
  | .runProcesses postponed _ =>
    if kernel.initialization then
      if postponed then .ok { kernel with phase := .computeNextTime }
      else
        .ok { kernel with
          processes := { kernel.processes with postponedTable := [] }
          ranProcesses := kernel.processes.postponedTable ≠ []
          phase := .runProcesses true kernel.processes.postponedTable }
    else if postponed then do
      let (kernel, tn) ← kernel.computeNextTime design
      if tn = kernel.now then .error (.error "postponed process causes a delta cycle")
      else .ok (kernel.endOfTimeStep tn)
    else .ok { kernel with phase := .computeNextTime }
  | .computeNextTime => do
    let (kernel, tn) ← kernel.computeNextTime design
    .ok (kernel.afterNextTime design tn)
  | .process _ _ _ | .finished => .ok kernel

/-- The action lists of a process are removed from the event lists, when a wait statement ends. -/
def removeSensitivity (kernel : Kernel) (p : ProcId) : Kernel :=
  { kernel with
    signals := { kernel.signals with
      eventList := (kernel.processes.proc p).sensitivity.foldl
        (fun eventList sig => update eventList sig ((eventList sig).erase ⟨true, p⟩))
        kernel.signals.eventList }
    processes := kernel.processes.modify p fun proc => { proc with sensitivity := [] } }

/-- `Run_Processes`: the next process is run. If it was waiting, it first looks at the condition of its
wait statement, and suspends AGAIN or closes the statement. -/
def runProcess (kernel : Kernel) (again : Bool) : Except GrtError Kernel :=
  match kernel.phase with
  | .runProcesses postponed (p :: table) =>
    if (kernel.processes.proc p).resumed = false then
      .error (.internalError "run non-resumed process")
    else
      let kernel := { kernel with
        processes := kernel.processes.modify p fun proc => { proc with resumed := false } }
      match (kernel.processes.proc p).state with
      | .wait =>
        if again then do
          let processes ← kernel.processes.waitSuspend p
          .ok { kernel with processes, phase := .runProcesses postponed table }
        else do
          let kernel := kernel.removeSensitivity p
          let processes ← kernel.processes.waitClose p
          .ok { kernel with processes, phase := .process p postponed table }
      | .timeout => do
        let kernel := kernel.removeSensitivity p
        let processes ← kernel.processes.waitClose p
        .ok { kernel with processes, phase := .process p postponed table }
      | _ => .ok { kernel with phase := .process p postponed table }
  | _ => .ok kernel

end Kernel

/-- What a process does to a signal. -/
inductive ProcessCall where
  /-- A signal assignment statement: a call of `Ghdl_Signal_Start_Assign` for the first waveform
  element, and one of `Ghdl_Signal_Next_Assign` for each of the others. -/
  | assign (sign : SignalId) (reject : Int) (kind : TransactionKind) (after : Int)
      (rest : List (Int × TransactionKind))
  /-- `Ghdl_Signal_Simple_Assign`. -/
  | simpleAssign (sign : SignalId) (val : ValueUnion)
  /-- `Ghdl_Signal_Disconnect`. -/
  | disconnect (sign : SignalId)
  /-- The variable of a direct driver is assigned, and `Ghdl_Signal_Direct_Assign` is called if the
  signal is to become active. -/
  | directAssign (sign : SignalId) (val : ValueUnion) (active : Bool)

/-- How a process suspends. -/
inductive Suspension where
  /-- A wait statement with a sensitivity, and maybe a timeout. -/
  | wait (timeout : Option Int) (sensitivity : List SignalId)
  /-- A wait statement with only a timeout. -/
  | waitFor (time : Int)
  /-- A wait statement without timeout and sensitivity. -/
  | waitExit
  /-- `Ghdl_Process_Delay`. -/
  | delay (del : Nat)
  /-- The end of a sensitized process. -/
  | finish

/-- What a callback does. -/
inductive CallbackCall where
  /-- `Ghdl_Signal_Force_Driving` and `Ghdl_Signal_Force_Effective`. -/
  | force (value : ForceValue)
  /-- A callback is registered for a time after the current one. -/
  | registerAt (delay : Int)
  /-- `Register_Callback`. -/
  | register (hook : Hook) (mode : CallbackMode)
  /-- `Delete_Callback`. -/
  | delete (hook : Hook) (index : Nat)

/-- What happens next. -/
inductive Label where
  /-- The kernel goes on. -/
  | tick
  /-- The next process is run. -/
  | run (again : Bool)
  /-- The running process calls the run time. -/
  | call (call : ProcessCall)
  /-- The running process suspends. -/
  | suspend (suspension : Suspension)
  /-- The running callback calls the run time. -/
  | callback (call : CallbackCall)

namespace Kernel

variable (design : Design)

/-- The variable of the direct driver of a process is assigned. -/
def assignVariable (signals : SignalState) (proc : ProcId) (sign : SignalId) (val : ValueUnion) :
    SignalState :=
  { signals with
    drivers := update signals.drivers sign
      ((signals.drivers sign).map fun driver =>
        if driver.proc = proc then { driver with valPtr := val } else driver) }

/-- A call of the run time by a process. -/
def processCall (kernel : Kernel) (p : ProcId) : ProcessCall → Except GrtError SignalState
  | .assign sign reject kind after rest => do
    let signals ←
      match kind with
      | .null => ghdlSignalStartAssignNull design kernel.now p kernel.signals sign reject after
      | _ => ghdlSignalStartAssign design kernel.now p kernel.signals sign reject kind after
    rest.foldlM
      (fun signals element =>
        ghdlSignalNextAssign kernel.now p signals sign element.2 element.1) signals
  | .simpleAssign sign val =>
    ghdlSignalSimpleAssign design kernel.now p kernel.signals sign val
  | .disconnect sign => ghdlSignalDisconnect design kernel.now p kernel.signals sign
  | .directAssign sign val active =>
    let signals := assignVariable kernel.signals p sign val
    .ok (if active then ghdlSignalDirectAssign signals sign else signals)

/-- `Ghdl_Process_Wait_Add_Sensitivity`. -/
def waitAddSensitivity (kernel : Kernel) (p : ProcId) (sig : SignalId) : Kernel :=
  { kernel with
    signals := { kernel.signals with
      eventList := update kernel.signals.eventList sig
        (⟨true, p⟩ :: kernel.signals.eventList sig) }
    processes := kernel.processes.modify p fun proc =>
      { proc with sensitivity := sig :: proc.sensitivity } }

/-- The calls of the run time that suspend a process. -/
def suspend (kernel : Kernel) (p : ProcId) : Suspension → Except GrtError Kernel
  | .wait timeout sensitivity => do
    let processes ←
      match timeout with
      | none => .ok kernel.processes
      | some time => kernel.processes.waitSetTimeout kernel.now p time
    let kernel := sensitivity.foldl (fun kernel sig => kernel.waitAddSensitivity p sig)
      { kernel with processes }
    let processes ← kernel.processes.waitSuspend p
    .ok { kernel with processes }
  | .waitFor time => do
    let processes ← kernel.processes.waitTimeout kernel.now p time
    .ok { kernel with processes }
  | .waitExit => do
    let processes ← kernel.processes.waitExit p
    .ok { kernel with processes }
  | .delay del => .ok { kernel with processes := kernel.processes.processDelay kernel.now p del }
  | .finish => .ok kernel

/-- A call of the run time by a callback. -/
def callbackCall (kernel : Kernel) : CallbackCall → Kernel
  | .force value =>
    { kernel with
      signals := { kernel.signals with forceValues := kernel.signals.forceValues ++ [value] } }
  | .registerAt delay =>
    { kernel with
      callbacks := kernel.callbacks.registerCallbackAt (StdTime.add kernel.now delay) }
  | .register hook mode =>
    { kernel with callbacks := kernel.callbacks.registerCallback hook mode }
  | .delete hook index => { kernel with callbacks := kernel.callbacks.deleteCallback hook index }

/-- A step of the system. -/
def step (kernel : Kernel) : Label → Except GrtError Kernel
  | .tick => kernel.tick design
  | .run again => kernel.runProcess again
  | .call call =>
    match kernel.phase with
    | .process p _ _ => do
      let signals ← kernel.processCall design p call
      .ok { kernel with signals }
    | _ => .ok kernel
  | .suspend suspension =>
    match kernel.phase with
    | .process p postponed table => do
      let kernel ← kernel.suspend p suspension
      .ok { kernel with phase := .runProcesses postponed table }
    | _ => .ok kernel
  | .callback call => .ok (kernel.callbackCall call)

/-- A callback is running. -/
def inCallback (kernel : Kernel) : Bool :=
  match kernel.phase with
  | .hook _ _ left => 0 < left
  | .afterDelay running => running
  | _ => false

/-- What a process may call. No kind of a waveform element is direct, and the elements ascend, unless
the first one is checked against the others by the run time itself. A direct driver is only created
where every assignment has one element without a delay, and only the process of the driver assigns
its variable. -/
def mayCall (kernel : Kernel) (p : ProcId) : ProcessCall → Bool
  | .assign sign _ kind after rest =>
    !kind.isDirect &&
      (rest = [] ||
        !(kernel.signals.drivers sign).any fun driver => driver.proc = p && driver.isDirect) &&
      rest.all fun element =>
        !element.2.isDirect && (after < element.1 || kernel.now + after ≤ StdTime.last)
  | .directAssign sign _ _ =>
    (kernel.signals.drivers sign).any fun driver => driver.proc = p && driver.isDirect
  | .simpleAssign _ _ | .disconnect _ => true

/-- The process is in the sensitivity list that elaboration has given to a signal. -/
def hasSensitivity (kernel : Kernel) (p : ProcId) : Bool :=
  (List.range design.count).any fun sig => ⟨false, p⟩ ∈ kernel.signals.eventList sig

/-- How a process may suspend. The state of a process with a sensitivity list cannot change. -/
def maySuspend (kernel : Kernel) (p : ProcId) : Suspension → Bool
  | .finish => true
  | .delay del => del < 2 ^ 32 && !kernel.hasSensitivity design p
  | .wait timeout _ => timeout.all (· ≤ StdTime.last)
  | .waitFor time => time ≤ StdTime.last
  | .waitExit => true

/-- The labels of the steps that may happen. -/
def enabled (kernel : Kernel) : Label → Bool
  | .tick =>
    match kernel.phase with
    | .process _ _ _ | .runProcesses _ (_ :: _) | .finished => false
    | _ => true
  | .run _ =>
    match kernel.phase with
    | .runProcesses _ (_ :: _) => true
    | _ => false
  | .call call =>
    match kernel.phase with
    | .process p _ _ => kernel.mayCall p call
    | _ => false
  | .suspend suspension =>
    match kernel.phase with
    | .process p _ _ => kernel.maySuspend design p suspension
    | _ => false
  | .callback _ => kernel.inCallback

end Kernel

end Ghdl.Grt
