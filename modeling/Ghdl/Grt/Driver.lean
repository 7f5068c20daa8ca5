import Ghdl.Grt.Types

/-!
# Drivers and their transactions

`Grt.Signals`, the part of a signal assignment that edits one driver's list of transactions.
Only its own driver (or implicit signal) points into a list. So each list owns a heap of cells,
addressed by `TransPtr`, with the pointers of the code.

A loop over cells is translated with an iteration bound, the number of addresses ever allocated
in the heap, which no list of distinct cells exceeds.
-/

namespace Ghdl.Grt

open Function

/-- `Process_Acc`, as an index into `Process_Table`. -/
abbrev ProcId := Nat

/-- `Transaction_Acc`, as an address in the heap of one list. -/
abbrev TransPtr := Nat

/-- The discriminant `Kind` of a transaction with the components it selects. The pointer `Val_Ptr`
of a direct transaction is `Driver.valPtr`. -/
inductive TransactionKind where
  | value (val : ValueUnion)
  | direct
  | null
  | error (file : String) (line : Int)
  deriving DecidableEq, Repr

namespace TransactionKind

/-- `Next.Kind /= Trans.Kind or else (Trans.Kind = Trans_Value and then not Value_Equal
(Next.Val, Trans.Val, Sign.Mode))`. -/
def differs (mode : ModeType) : TransactionKind → TransactionKind → Bool
  | value nextVal, value transVal => !valueEqual nextVal transVal mode
  | direct, direct => false
  | null, null => false
  | error _ _, error _ _ => false
  | _, _ => true

/-- The kind is `Trans_Direct`. -/
def isDirect : TransactionKind → Bool
  | direct => true
  | _ => false

end TransactionKind

/-- A transaction: its kind and the time it is projected to occur. -/
structure Transaction where
  /-- `Kind` and the components it selects. -/
  kind : TransactionKind
  /-- `Time`. -/
  time : Int
  deriving DecidableEq, Repr

/-- `Transaction` as it is stored, with the link to the next one. -/
structure TransactionCell extends Transaction where
  /-- `Next`. -/
  next : Option TransPtr
  deriving DecidableEq, Repr

/-- The cells of one list of transactions. -/
structure TransHeap where
  /-- The allocated cells. -/
  cell : TransPtr → Option TransactionCell
  /-- No cell was ever allocated at this address or above. -/
  fresh : TransPtr

namespace TransHeap

/-- The heap without a cell. -/
def empty : TransHeap := ⟨fun _ => none, 0⟩

/-- `P.all`. -/
def read (heap : TransHeap) : Option TransPtr → Except GrtError TransactionCell
  | none => .error .nullAccess
  | some p =>
    match heap.cell p with
    | none => .error .freedAccess
    | some cell => .ok cell

/-- `P.all := Cell`, for an allocated cell. -/
def write (heap : TransHeap) (p : TransPtr) (cell : TransactionCell) : TransHeap :=
  { heap with cell := update heap.cell p (some cell) }

/-- `Free (P)`. -/
def free (heap : TransHeap) (p : TransPtr) : TransHeap :=
  { heap with cell := update heap.cell p none }

/-- `new Transaction'(Kind, Time, Next => null)`, which is placed at the address `fresh`. -/
def new (heap : TransHeap) (trans : Transaction) : TransHeap where
  cell := update heap.cell heap.fresh (some ⟨trans, none⟩)
  fresh := heap.fresh + 1

/-- Find the first transaction to be deleted: `while Next /= null and then Next.Time <
Assign_Time loop Last := Next; Next := Next.Next; end loop`. -/
def findDeleted (heap : TransHeap) (assignTime : Int) :
    Nat → TransPtr → Option TransPtr → Except GrtError (TransPtr × Option TransPtr)
  | 0, _, _ => .error .loopBound
  | _ + 1, last, none => .ok (last, none)
  | fuel + 1, last, some next => do
    let cell ← heap.read (some next)
    if cell.time < assignTime then heap.findDeleted assignTime fuel next cell.next
    else .ok (last, some next)

/-- Free removed transactions: `loop Last := Next.Next; Free (Next); exit when Last = null;
Next := Last; end loop`. -/
def freeFrom : Nat → TransHeap → TransPtr → Except GrtError TransHeap
  | 0, _, _ => .error .loopBound
  | fuel + 1, heap, next => do
    let cell ← heap.read (some next)
    match cell.next with
    | none => .ok (heap.free next)
    | some last => freeFrom fuel (heap.free next) last

/-- Find the first transaction after the project time less the rejection time: `loop Next :=
Prev.Next; exit when Next.Time >= Assign_Time - Reject; Prev := Next; end loop`. -/
def findWindow (heap : TransHeap) (limit : Int) :
    Nat → TransPtr → Except GrtError (TransPtr × Option TransPtr)
  | 0, _ => .error .loopBound
  | fuel + 1, prev => do
    let cell ← heap.read (some prev)
    let next ← heap.read cell.next
    if limit ≤ next.time then .ok (prev, cell.next)
    else
      match cell.next with
      | none => .error .nullAccess
      | some next => heap.findWindow limit fuel next

/-- Delete ]PREV;NEXT]: `loop N := D.Next; Free (D); exit when N = Next; D := N; end loop`. -/
def freeThrough (stop : Option TransPtr) : Nat → TransHeap → Option TransPtr →
    Except GrtError TransHeap
  | 0, _, _ => .error .loopBound
  | _ + 1, _, none => .error .nullAccess
  | fuel + 1, heap, some d => do
    let cell ← heap.read (some d)
    if cell.next = stop then .ok (heap.free d)
    else freeThrough stop fuel (heap.free d) cell.next

/-- Scan every transaction until TRANS. If a transaction value is different from the TRANS value,
then delete all previous transactions (from T - R to the currently scanned transaction). -/
def scanWindow (mode : ModeType) (trans : TransPtr) (kind : TransactionKind) :
    Nat → TransHeap → TransPtr → Option TransPtr → Except GrtError TransHeap
  | 0, _, _, _ => .error .loopBound
  | fuel + 1, heap, prev, next =>
    if next = some trans then .ok heap
    else do
      let cell ← heap.read next
      if cell.kind.differs mode kind then do
        let before ← heap.read (some prev)
        let cut := heap.write prev { before with next := cell.next }
        let freed ← freeThrough cell.next (heap.fresh + 1) cut before.next
        scanWindow mode trans kind fuel freed prev cell.next
      else scanWindow mode trans kind fuel heap prev cell.next

end TransHeap

/-- `Driver_Type`. -/
structure Driver where
  /-- The transaction that determines the current value. -/
  firstTrans : TransPtr
  /-- The end of the list. -/
  lastTrans : TransPtr
  /-- The cells of the list. -/
  heap : TransHeap
  /-- The process that the driver belongs to. -/
  proc : ProcId
  /-- The variable that a direct transaction points to. -/
  valPtr : ValueUnion
  /-- For the specification only: the process has assigned its direct driver through
  `Ghdl_Signal_Start_Assign` since the driver was last updated. -/
  assigned : Bool := false

namespace Driver

/-- `Ghdl_Process_Add_Driver` and `Ghdl_Process_Add_Port_Driver`: the driver of a process starts with
one transaction, for its initial value. -/
def create (proc : ProcId) (val : ValueUnion) : Driver where
  firstTrans := 0
  lastTrans := 0
  heap := TransHeap.empty.new ⟨.value val, 0⟩
  proc := proc
  valPtr := val

/-- `Ghdl_Signal_Add_Direct_Driver`: the second transaction, for the next driving value, is direct. -/
def createDirect (proc : ProcId) (drv : ValueUnion) : Driver where
  firstTrans := 0
  lastTrans := 1
  heap := ((TransHeap.empty.new ⟨.value drv, 0⟩).write 0 ⟨⟨.value drv, 0⟩, some 1⟩).new ⟨.direct, 0⟩
  proc := proc
  valPtr := drv

/-- `Driver.Last_Trans.Kind = Trans_Direct`. -/
def isDirect (driver : Driver) : Bool :=
  match driver.heap.cell driver.lastTrans with
  | none => false
  | some last => last.kind.isDirect

/-- LRM93 8.4.1, step 1: all old transactions that are projected to occur at or after the time at
which the earliest new transaction is projected to occur are deleted. -/
def deleteOld (driver : Driver) (assignTime : Int) : Except GrtError Driver := do
  let lastCell ← driver.heap.read (some driver.lastTrans)
  if assignTime ≤ lastCell.time then do
    let first ← driver.heap.read (some driver.firstTrans)
    let (last, next) ←
      driver.heap.findDeleted assignTime (driver.heap.fresh + 1) driver.firstTrans first.next
    match next with
    | none => .ok driver
    | some next => do
      let kept ← driver.heap.read (some last)
      let cut := driver.heap.write last { kept with next := none }
      let freed ← cut.freeFrom (driver.heap.fresh + 1) next
      .ok { driver with lastTrans := last, heap := freed }
  else .ok driver

/-- `Driver.Last_Trans.Next := Trans; Driver.Last_Trans := Trans`. -/
def append (driver : Driver) (trans : TransPtr) : Except GrtError Driver := do
  let last ← driver.heap.read (some driver.lastTrans)
  .ok { driver with
    lastTrans := trans, heap := driver.heap.write driver.lastTrans { last with next := some trans } }

/-- The effect of a positive pulse rejection limit on the transactions before TRANS. -/
def rejectOld (driver : Driver) (mode : ModeType) (trans : TransPtr) (kind : TransactionKind)
    (limit : Int) : Except GrtError Driver := do
  let (prev, next) ← driver.heap.findWindow limit (driver.heap.fresh + 1) driver.firstTrans
  let heap ← driver.heap.scanWindow mode trans kind (driver.heap.fresh + 1) prev next
  .ok { driver with heap }

/-- The part of `Ghdl_Signal_Start_Assign` that edits the waveform of a driver, for an assignment
time that is not beyond the future: the new transaction TRANS of the given kind is allocated by the
caller, so it is the driver's youngest cell. -/
def startAssign (driver : Driver) (mode : ModeType) (assignTime reject after : Int)
    (kind : TransactionKind) : Except GrtError Driver := do
  let trans := driver.heap.fresh
  let driver := { driver with heap := driver.heap.new ⟨kind, 0⟩ }
  let driver ← driver.deleteOld assignTime
  let driver := { driver with heap := driver.heap.write trans ⟨⟨kind, assignTime⟩, none⟩ }
  let driver ← driver.append trans
  if 0 < reject then do
    if after < reject then .error (.error "pulse rejection greater than first waveform delay")
    else driver.rejectOld mode trans kind (StdTime.sub assignTime reject)
  else if reject ≠ 0 then .error (.error "pulse rejection is negative")
  else .ok driver

/-- The part of `Ghdl_Signal_Next_Assign` and `Ghdl_Signal_Next_Assign_Error` that edits the
waveform of a driver. -/
def nextAssign (driver : Driver) (now after : Int) (kind : TransactionKind) :
    Except GrtError Driver := do
  let trans := driver.heap.fresh
  let time := StdTime.add now after
  let driver := { driver with heap := driver.heap.new ⟨kind, time⟩ }
  let last ← driver.heap.read (some driver.lastTrans)
  if time ≤ last.time then .error (.error "transactions not in ascending order")
  else driver.append trans

/-- A signal assignment statement on a driver: `Ghdl_Signal_Start_Assign` for its first waveform
element, then `Ghdl_Signal_Next_Assign` for each of the others, given by delay and kind. -/
def signalAssignment (driver : Driver) (mode : ModeType) (now reject after : Int)
    (kind : TransactionKind) (rest : List (Int × TransactionKind)) : Except GrtError Driver := do
  let driver ← driver.startAssign mode (StdTime.add now after) reject after kind
  rest.foldlM (fun driver element => driver.nextAssign now element.1 element.2) driver

/-- `Trans := First_Trans.Next; Free (First_Trans); First_Trans := Trans; ... Trans.Kind`, for a driver
that is taken to have a transaction to consume. -/
def consume (driver : Driver) : Except GrtError (TransactionKind × Driver) := do
  let first ← driver.heap.read (some driver.firstTrans)
  match first.next with
  | none => .error .nullAccess
  | some next => do
    let cell ← driver.heap.read (some next)
    .ok (cell.kind,
      { driver with firstTrans := next, heap := driver.heap.free driver.firstTrans })

/-- `Assign (First_Trans.Val, Val)`. -/
def assignFirst (driver : Driver) (val : ValueUnion) : Except GrtError Driver := do
  let first ← driver.heap.read (some driver.firstTrans)
  .ok { driver with
    heap := driver.heap.write driver.firstTrans { first with kind := .value val }, assigned := false }

/-- What the next transaction of a driver means for the cycle at a time. -/
inductive Activity where
  /-- The driver is not active. -/
  | idle
  /-- A direct driver has its value assigned. -/
  | direct (val : ValueUnion)
  /-- A transaction of this kind is due, and has become the current one. -/
  | due (kind : TransactionKind)

/-- The driver is active. -/
def Activity.isActive : Activity → Bool
  | idle => false
  | _ => true

/-- Update the current transaction of a driver: from the variable of a direct driver, or from a
transaction that is due. -/
def update (driver : Driver) (now : Int) : Except GrtError (Activity × Driver) := do
  let first ← driver.heap.read (some driver.firstTrans)
  match first.next with
  | none => .ok (.idle, driver)
  | some next => do
    let cell ← driver.heap.read (some next)
    if cell.kind.isDirect then do
      let driver' ← driver.assignFirst driver.valPtr
      .ok (.direct driver.valPtr, driver')
    else if cell.time = now then do
      let (kind, driver') ← driver.consume
      .ok (.due kind, driver')
    else .ok (.idle, driver)

/-- `Sig.S.Drivers (I).First_Trans.Kind`. -/
def firstKind (driver : Driver) : Except GrtError TransactionKind := do
  let first ← driver.heap.read (some driver.firstTrans)
  .ok first.kind

end Driver

end Ghdl.Grt
