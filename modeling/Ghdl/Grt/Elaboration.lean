import Ghdl.Grt.Cycle
import Ghdl.System.Run

/-!
# The start of a simulation

Elaboration registers the processes of a design with their drivers and sensitivity lists. The kernel
starts in `Initialization_Phase`, when every process has been resumed and the first callbacks are
called. `Kernel.system` is the kernel as a system that takes steps.
-/

namespace Ghdl.Grt

open Transition Function

/-- A call of `Ghdl_Process_Add_Driver`, `Ghdl_Process_Add_Port_Driver` or
`Ghdl_Signal_Add_Direct_Driver`. -/
structure DriverDecl where
  /-- The signal. -/
  sign : SignalId
  /-- The driver is a direct one. -/
  direct : Bool
  /-- The initial value. -/
  val : ValueUnion

/-- The driver of a process. -/
def DriverDecl.create (decl : DriverDecl) (proc : ProcId) : Driver :=
  if decl.direct then Driver.createDirect proc decl.val else Driver.create proc decl.val

/-- `Ghdl_Signal_Add_Driver`: a process does not create a driver twice. -/
def addDriver (drivers : List Driver) (driver : Driver) : List Driver :=
  if drivers.any (·.proc = driver.proc) then drivers else drivers ++ [driver]

/-- A registered process. -/
structure ProcessDecl where
  /-- The process is postponed. -/
  postponed : Bool
  /-- The signals to which a sensitized process is sensitive. -/
  sensitivity : Option (List SignalId)
  /-- The drivers of the process. -/
  drivers : List DriverDecl

/-- What elaboration leaves besides the design. -/
structure Setup where
  /-- The registered processes. -/
  processes : List ProcessDecl
  /-- The values after `Init_Signals`. -/
  values : SignalId → SignalValues
  /-- The transactions of implicit signals when they are created. -/
  attrTrans : SignalId → Transaction
  /-- The callbacks registered before the simulation starts. -/
  hooks : Hook → List CallbackMode
  /-- The times of the callbacks registered for a time before the simulation starts. -/
  afterDelay : List Int
  /-- The values forced before the simulation starts. -/
  forceValues : List ForceValue

/-- `Process_Register`. -/
def ProcessDecl.register (decl : ProcessDecl) (procs : Processes) : Processes :=
  { procs with
    count := procs.count + 1
    proc := update procs.proc procs.count {
      resumed := false
      postponed := decl.postponed
      state := if decl.sensitivity.isSome then .sensitized else .ready
      timeout := StdTime.bad
      chainNext := none
      chainPrev := none
      sensitivity := [] } }

/-- The drivers and the sensitivity list of a process. -/
def ProcessDecl.connect (decl : ProcessDecl) (proc : ProcId) (signals : SignalState) : SignalState :=
  { signals with
    drivers := decl.drivers.foldl
      (fun drivers driver => update drivers driver.sign
        (addDriver (drivers driver.sign) (driver.create proc)))
      signals.drivers
    eventList := (decl.sensitivity.getD []).foldl
      (fun eventList sig => update eventList sig (⟨false, proc⟩ :: eventList sig))
      signals.eventList }

namespace Setup

/-- No process is registered yet. -/
def noProcesses : Processes where
  count := 0
  proc _ := ⟨false, false, .dead, StdTime.bad, none, none, []⟩
  resumeTable := []
  postponedTable := []
  firstTimeout := StdTime.last
  timeoutChain := none

/-- The signals when they are created. Implicit signals with a delay are on the future list. -/
def createSignals (design : Design) (setup : Setup) : SignalState :=
  ((List.range design.count).filter fun sig =>
      (design.decl sig).modeSig.isForward && 0 < (design.decl sig).time).foldl
    SignalState.insertFuture
    { values := setup.values
      link := fun _ => none
      flink := fun _ => none
      directActive := fun _ => false
      drivers := fun _ => []
      attrTrans := fun sig => ⟨setup.attrTrans sig, []⟩
      eventList := fun _ => []
      forceValues := setup.forceValues
      updated := fun _ => false }

/-- Register the processes of a design. -/
def register (design : Design) (setup : Setup) : Processes × SignalState :=
  setup.processes.foldl
    (fun state decl => (decl.register state.1, decl.connect state.1.count state.2))
    (noProcesses, createSignals design setup)

/-- The callbacks registered before the simulation starts. -/
def callbacks (setup : Setup) : Callbacks :=
  setup.afterDelay.foldl Callbacks.registerCallbackAt ⟨setup.hooks, [], StdTime.last⟩

/-- The kernel in `Initialization_Phase`, when every process is resumed. -/
def kernel (design : Design) (setup : Setup) : Kernel :=
  let registered := setup.register design
  { now := 0
    nextTime := 0
    currentDelta := 0
    signals := registered.2
    processes := (List.range registered.1.count).foldl Processes.resumeProcess registered.1
    callbacks := setup.callbacks
    initialization := true
    ranProcesses := false
    phase := .hook .startOfProcesses 0 (setup.callbacks.hooks .startOfProcesses).length }

end Setup

/-- What the compiler promises of the processes that it registers. -/
structure Setup.WellFormed (design : Design) (setup : Setup) : Prop where
  /-- Sensitivity lists hold signals of the design. -/
  sensitivity : ∀ decl ∈ setup.processes, ∀ sig ∈ decl.sensitivity.getD [], sig < design.count

/-- The kernel as a system that takes steps. -/
def Kernel.system (design : Design) : System Kernel Label GrtError where
  enabled kernel label := kernel.enabled design label
  step kernel label := kernel.step design label

/-- A run of the simulation of a design reaches the kernel, and each of its steps meets the
condition. -/
def Setup.Reaches (design : Design) (setup : Setup) (meets : Kernel → Label → Prop)
    (kernel : Kernel) : Prop :=
  (Kernel.system design).Run meets (setup.kernel design) kernel

end Ghdl.Grt
