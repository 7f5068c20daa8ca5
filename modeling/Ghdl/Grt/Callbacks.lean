import Mathlib
import Ghdl.System.Fallible
import Ghdl.System.Run

/-!
# Callbacks

The cells of the callbacks are on one list of timed callbacks, that is sorted, on lists that are called as a whole, or on
the list of recycled handles. A callback may register others and delete some while its list is being called, so a call is
a loop that is interrupted at each callback.
-/

namespace Ghdl.Callbacks

/-- `Callback_Mode`. -/
inductive Mode where
  | timed
  | repeat_
  | oneshot
deriving DecidableEq, Repr

/-- `Std_Time'Last`. -/
def stdTimeLast : Int := 2 ^ 63 - 1

/-- `Cb_Cell`. The procedures are numbered with their arguments; the one without a number is `Nop_Callback`. -/
structure Cell where
  t : Int
  mode : Mode
  proc : Option Nat
  next : Option Nat
deriving DecidableEq, Repr

/-- `Callback_List`. -/
structure CallbackList where
  first : Option Nat
  last : Option Nat
deriving DecidableEq, Repr

/-- The cells that have been allocated, `Recycled_Handles`, the list of timed callbacks and the others. -/
structure State where
  cells : Nat → Cell
  allocated : Nat
  recycledHandles : Option Nat
  first : Option Nat
  firstTimeout : Int
  lists : Nat → CallbackList

/-- A null access is dereferenced, an assertion fails, or a loop doesn't exit. -/
inductive CallbackError where
  | null
  | assertion
  | noExit
deriving DecidableEq, Repr

/-- There are no callbacks. -/
def State.init : State where
  cells _ := ⟨0, .timed, none, none⟩
  allocated := 0
  recycledHandles := none
  first := none
  firstTimeout := stdTimeLast
  lists _ := ⟨none, none⟩

namespace State

/-- An assignment to a cell. -/
def setCell (s : State) (h : Nat) (c : Cell) : State := { s with cells := Function.update s.cells h c }

/-- An assignment to the link of a cell. -/
def setNext (s : State) (h : Nat) (next : Option Nat) : State := s.setCell h { s.cells h with next := next }

/-- An assignment to a list. -/
def setList (s : State) (k : Nat) (l : CallbackList) : State := { s with lists := Function.update s.lists k l }

/-- `Free_Handle`. -/
def freeHandle (s : State) (hand : Nat) : State :=
  { s.setNext hand s.recycledHandles with recycledHandles := some hand }

/-- `Allocate_Handle`. -/
def allocateHandle (s : State) : State × Nat :=
  match s.recycledHandles with
  | none => ({ s with allocated := s.allocated + 1 }, s.allocated)
  | some res => ({ s with recycledHandles := (s.cells res).next }, res)

/-- The loop of `Register_Callback_At`. -/
def insertPoint (s : State) (t : Int) : Nat → Option Nat → Option Nat → Except CallbackError (Option Nat × Option Nat)
  | 0, _, _ => .error .noExit
  | fuel + 1, last, cur =>
    match cur with
    | none => .ok (last, cur)
    | some c => if t < (s.cells c).t then .ok (last, cur) else insertPoint s t fuel cur (s.cells c).next

/-- `Register_Callback_At`. -/
def registerCallbackAt (s : State) (t : Int) (proc : Nat) : Except CallbackError (State × Nat) := do
  let (s, handle) := s.allocateHandle
  let s := s.setCell handle ⟨t, .timed, some proc, none⟩
  let (last, cur) ← s.insertPoint t (s.allocated + 1) none s.first
  match last with
  | none => .ok ({ s.setNext handle s.first with first := some handle, firstTimeout := t }, handle)
  | some last =>
    if cur = (s.cells last).next then .ok ((s.setNext handle cur).setNext last (some handle), handle)
    else .error .assertion

/-- The end of an iteration of `Call_Time_Callbacks`, up to the call of a procedure if there is one. -/
def nextTimeCallback (s : State) (currentTime : Int) : State × Option (Option Nat) :=
  match s.first with
  | none => ({ s with firstTimeout := stdTimeLast }, none)
  | some c =>
    if currentTime < (s.cells c).t then ({ s with firstTimeout := (s.cells c).t }, none)
    else (State.freeHandle { s with first := (s.cells c).next } c, some (s.cells c).proc)

/-- `Call_Time_Callbacks`, up to the first call. -/
def callTimeCallbacks (s : State) (currentTime : Int) : Except CallbackError (State × Option (Option Nat)) :=
  if s.firstTimeout = currentTime then .ok (s.nextTimeCallback currentTime) else .error .assertion

/-- The cell is appended. -/
def append (s : State) (k handle : Nat) : Except CallbackError State :=
  match (s.lists k).first, (s.lists k).last with
  | none, none => .ok (s.setList k ⟨some handle, some handle⟩)
  | some first, some last => .ok ((s.setNext last (some handle)).setList k ⟨some first, some handle⟩)
  | _, _ => .error .assertion

/-- `Register_Callback`. -/
def registerCallback (s : State) (k : Nat) (mode : Mode) (proc : Nat) : Except CallbackError (State × Nat) := do
  let (s, handle) := s.allocateHandle
  let s ← (s.setCell handle ⟨0, mode, some proc, none⟩).append k handle
  .ok (s, handle)

end State

/-- The variables of the loop of `Call_Callbacks`. -/
structure Loop where
  list : Nat
  last : Option Nat
  cell : Nat
  prevCell : Option Nat
deriving DecidableEq, Repr

namespace State

/-- `Call_Callbacks`, up to the first call. -/
def callCallbacks (s : State) (k : Nat) : Option Loop :=
  match (s.lists k).first with
  | none => none
  | some cell => some ⟨k, (s.lists k).last, cell, none⟩

/-- The head of the list, or the link of the cell before, is updated. -/
def unlink (s : State) (k : Nat) (prevCell nextCell : Option Nat) : State :=
  match prevCell with
  | none => s.setList k { s.lists k with first := nextCell }
  | some prev => s.setNext prev nextCell

/-- The last cell of the list is updated. -/
def repairLast (s : State) (k : Nat) (prevCell nextCell : Option Nat) : State :=
  if nextCell = none then s.setList k { s.lists k with last := prevCell } else s

/-- `Call_Callbacks` after a call, up to the next one if there is one. -/
def afterCall (s : State) (loop : Loop) : Except CallbackError (State × Option Loop) :=
  let nextCell := (s.cells loop.cell).next
  let (s, prevCell) :=
    if (s.cells loop.cell).mode = .oneshot then
      (((s.unlink loop.list loop.prevCell nextCell).repairLast loop.list loop.prevCell nextCell).freeHandle loop.cell, loop.prevCell)
    else (s, some loop.cell)
  if some loop.cell = loop.last then .ok (s, none)
  else
    match nextCell with
    | none => .error .null
    | some cell => .ok (s, some { loop with cell := cell, prevCell := prevCell })

/-- `Delete_Callback`. -/
def deleteCallback (s : State) (handle : Nat) : State :=
  let c := s.cells handle
  s.setCell handle { c with proc := none, mode := if c.mode = .repeat_ then .oneshot else c.mode }

end State

/-- What has been registered: the list, none for the timed one, the time and the mode, with the handle. The other fields
say how often the procedure had been called when the callback was deleted, how many calls of its list have been issued
since the registration that were due, and how often the procedure has been called. -/
structure Registration where
  queue : Option Nat
  time : Int
  mode : Mode
  handle : Nat
  deleted : Option Nat
  calls : Nat
  runs : Nat
deriving DecidableEq, Repr

/-- Where the client is: not in a call, or in a procedure that is called. -/
inductive Phase where
  | idle
  | timed (proc : Option Nat)
  | calling (loop : Loop) (proc : Option Nat)
deriving DecidableEq, Repr

structure Client where
  state : State
  currentTime : Int
  phase : Phase
  registered : List Registration

/-- What the client or the procedure that is called does. -/
inductive Action where
  | setTime (t : Int)
  | registerAt (t : Int)
  | register (k : Nat) (again : Bool)
  | delete (r : Nat)
  | callTime
  | call (k : Nat)
  | return_
deriving DecidableEq, Repr

/-- A registration. The procedure has the number of the registration. -/
def Registration.new (queue : Option Nat) (time : Int) (mode : Mode) (handle : Nat) : Registration :=
  ⟨queue, time, mode, handle, none, 0, 0⟩

/-- A call that is due. -/
def Registration.called (r : Registration) : Registration := { r with calls := r.calls + 1 }

/-- The procedure is called. -/
def Client.run (registered : List Registration) (proc : Option Nat) : List Registration :=
  match proc with
  | none => registered
  | some r => registered.modify r fun reg => { reg with runs := reg.runs + 1 }

/-- The calls are due for the callbacks that satisfy the condition. -/
def Client.due (registered : List Registration) (condition : Registration → Bool) : List Registration :=
  registered.map fun reg => if condition reg then reg.called else reg

/-- A timed procedure is called, or the call is over. -/
def Client.timed (client : Client) (result : State × Option (Option Nat)) : Client :=
  match result.2 with
  | none => { client with state := result.1, phase := .idle }
  | some proc =>
    { client with state := result.1, phase := .timed proc, registered := Client.run client.registered proc }

/-- The procedure of a cell is called, or the call is over. -/
def Client.calling (client : Client) (result : State × Option Loop) : Client :=
  match result.2 with
  | none => { client with state := result.1, phase := .idle }
  | some loop =>
    let proc := (result.1.cells loop.cell).proc
    { client with state := result.1, phase := .calling loop proc, registered := Client.run client.registered proc }

def Client.step (client : Client) : Action → Except CallbackError Client
  | .setTime t => .ok { client with currentTime := t }
  | .registerAt t => do
    let (state, handle) ← client.state.registerCallbackAt t client.registered.length
    let registered := client.registered ++ [Registration.new none t .timed handle]
    .ok { client with state := state, registered := registered }
  | .register k again => do
    let mode := if again then Mode.repeat_ else .oneshot
    let (state, handle) ← client.state.registerCallback k mode client.registered.length
    let registered := client.registered ++ [Registration.new (some k) 0 mode handle]
    .ok { client with state := state, registered := registered }
  | .delete r =>
    match client.registered[r]? with
    | none => .ok client
    | some reg =>
      let registered := client.registered.set r { reg with deleted := some reg.runs }
      .ok { client with state := client.state.deleteCallback reg.handle, registered := registered }
  | .callTime => do
    let result ← client.state.callTimeCallbacks client.currentTime
    let registered := Client.due client.registered fun reg => reg.queue = none ∧ reg.time ≤ client.currentTime
    .ok (Client.timed { client with registered := registered } result)
  | .call k =>
    let registered := Client.due client.registered fun reg => reg.queue = some k
    .ok (Client.calling { client with registered := registered } (client.state, client.state.callCallbacks k))
  | .return_ =>
    match client.phase with
    | .idle => .ok client
    | .timed _ => .ok (Client.timed client (client.state.nextTimeCallback client.currentTime))
    | .calling loop _ => do
      let result ← client.state.afterCall loop
      .ok (Client.calling client result)

/-- A procedure that is called may do what it likes; `Nop_Callback` does nothing. -/
def Phase.acts : Phase → Bool
  | .idle => true
  | .timed proc | .calling _ proc => proc.isSome

/-- A callback that is deleted has not been, and has not run unless it is repeated. -/
def Registration.pending (reg : Registration) : Bool := reg.deleted = none ∧ (reg.mode = .repeat_ ∨ reg.runs = 0)

/-- Time passes between calls, and a list is called when no call is in progress. -/
def Action.enabled (client : Client) : Action → Bool
  | .setTime _ | .callTime | .call _ => client.phase = .idle
  | .registerAt _ | .register _ _ => client.phase.acts
  | .delete r => client.phase.acts && (client.registered[r]?).any Registration.pending
  | .return_ => client.phase ≠ .idle

def callbackSystem : Transition.System Client Action CallbackError where
  enabled := fun client action => action.enabled client
  step := Client.step

/-- In `Call_Time_Callbacks`, timed callbacks are registered strictly in the future. -/
def Future (client : Client) : Action → Prop
  | .registerAt t => ∀ proc, client.phase = .timed proc → client.currentTime < t
  | _ => True

/-- No callback has been registered. -/
def Client.init : Client := ⟨State.init, 0, .idle, []⟩

end Ghdl.Callbacks
