import Mathlib
import Ghdl.Linked.Segment
import Ghdl.System.Fallible
import Ghdl.System.Run

/-!
# The secondary stack

Memory is allocated from a list of chunks. The chunks cover consecutive intervals of indexes, of which Top is the first
free one: a mark is the value of Top, and a release puts it back. Chunks are kept after a release; those behind a chunk
are freed when the next allocation fits in neither that chunk nor the next one. A byte of a chunk is one of memory, so
that the indexes, which are the 64 bits of `Mark_Id`, do not wrap. A `Chunk_Acc` is the number of the chunk in the order of
their creation.
-/

namespace Ghdl.Secondary

open Fallible Linked Function

/-- `Min_Chunk_Size`. -/
def minChunkSize : Nat := 8 * 1024

/-- `Standard'Maximum_Alignment` of the target. -/
structure Target where
  maxAlign : Nat
  positive : 0 < maxAlign
  divides : maxAlign ∣ minChunkSize

/-- `Chunk_Type`; BASE is the address of the first byte of Mem. -/
structure Chunk where
  first : Nat
  last : Nat
  next : Option Nat
  base : Nat
deriving DecidableEq, Repr

/-- `Stack2_Type`, with the chunks in memory and the number of the next one. -/
structure Stack2 where
  heap : Nat → Option Chunk
  fresh : Nat
  firstChunk : Nat
  lastChunk : Nat
  top : Nat

/-- No chunk is designated, or a loop doesn't exit. -/
inductive Stack2Error where
  | access
  | noExit
deriving DecidableEq, Repr

namespace Stack2

/-- `Chunk.all`. -/
def deref (s : Stack2) (chunk : Nat) : Except Stack2Error Chunk :=
  match s.heap chunk with
  | none => .error .access
  | some c => .ok c

/-- `Mark`. -/
def mark (s : Stack2) : Nat := s.top

/-- `Release`. -/
def release (s : Stack2) (mark : Nat) : Stack2 := { s with top := mark }

/-- The loop that finds the chunk to which Top belongs. -/
def findChunk (s : Stack2) : Nat → Nat → Except Stack2Error (Option Nat)
  | 0, _ => .error .noExit
  | fuel + 1, chunk => do
    let c ← s.deref chunk
    if c.first ≤ s.top ∧ s.top ≤ c.last then .ok (some chunk)
    else match c.next with
      | none => .ok none
      | some next => findChunk s fuel next

/-- The loop that frees a chunk and all the following ones. -/
def freeChunks : Nat → Nat → Stack2 → Except Stack2Error Stack2
  | 0, _, _ => .error .noExit
  | fuel + 1, chunk, s => do
    let c ← s.deref chunk
    let s := { s with heap := update s.heap chunk none }
    match c.next with
    | none => .ok s
    | some next => freeChunks fuel next s

/-- A new chunk behind the last one, of which the memory is at MEM. -/
def newChunk (mem alignedSize : Nat) (s : Stack2) : Except Stack2Error (Stack2 × Nat) := do
  let l ← s.deref s.lastChunk
  let first := l.last + 1
  let c : Chunk := { first := first, last := first + max alignedSize minChunkSize - 1, next := none, base := mem }
  let heap := update s.heap s.fresh (some c)
  let heap := update heap s.lastChunk (some { l with next := some s.fresh })
  .ok ({ s with heap := heap, fresh := s.fresh + 1, lastChunk := s.fresh, top := c.last + 1 }, c.base)

end Stack2

/-- `Aligned_Size`. -/
def Target.alignedSize (target : Target) (size : Nat) : Nat :=
  (size + target.maxAlign - 1) / target.maxAlign * target.maxAlign

/-- `Allocate`: the stack and the address; the memory of a new chunk, if there is one, is at MEM. -/
def allocate (target : Target) (mem size : Nat) (s : Stack2) : Except Stack2Error (Stack2 × Nat) := do
  let alignedSize := target.alignedSize size
  match ← s.findChunk s.fresh s.firstChunk with
  | none => s.newChunk mem alignedSize
  | some chunk => do
    let c ← s.deref chunk
    if alignedSize ≤ c.last - s.top + 1 then
      .ok ({ s with top := s.top + alignedSize }, c.base + (s.top - c.first))
    else match c.next with
      | none => s.newChunk mem alignedSize
      | some next => do
        let n ← s.deref next
        if alignedSize ≤ n.last - n.first + 1 then .ok ({ s with top := n.first + alignedSize }, n.base)
        else do
          let s ← Stack2.freeChunks s.fresh next { s with lastChunk := chunk }
          s.newChunk mem alignedSize

/-- `Create`: the memory of the first chunk is at MEM. -/
def create (mem : Nat) : Stack2 where
  heap := update (fun _ => none) 0 (some { first := 1, last := minChunkSize, next := none, base := mem })
  fresh := 1
  firstChunk := 0
  lastChunk := 0
  top := 1

/-- What has been allocated. -/
structure Allocation where
  address : Nat
  size : Nat
deriving DecidableEq, Repr

/-- A stack with the allocations that are live, the last one first, and the marks that are not released, each with the
allocations that were live at the mark. -/
structure Client where
  stack : Stack2
  live : List Allocation
  marks : List (Nat × List Allocation)

/-- A call. A release is that of a mark, and drops the K marks after it. -/
inductive Operation where
  | mark
  | allocate (mem size : Nat)
  | release (k : Nat)
deriving DecidableEq, Repr

/-- The effect of a call. -/
def Client.step (target : Target) (client : Client) : Operation → Except Stack2Error Client
  | .mark => .ok { client with marks := (client.stack.mark, client.live) :: client.marks }
  | .allocate mem size => do
    let (stack, address) ← Secondary.allocate target mem size client.stack
    .ok { client with stack := stack, live := ⟨address, size⟩ :: client.live }
  | .release k =>
    match client.marks.drop k with
    | [] => .ok client
    | (mark, live) :: marks => .ok ⟨client.stack.release mark, live, marks⟩

/-- The marks are released in the reverse order. -/
def system (target : Target) : Transition.System Client Operation Stack2Error where
  enabled client op := match op with
    | .release k => decide (k < client.marks.length)
    | _ => true
  step := Client.step target

/-- A client of a stack that has just been created. -/
def Client.create (mem : Nat) : Client := ⟨Secondary.create mem, [], []⟩

/-- The bytes of the chunk. -/
def Chunk.size (c : Chunk) : Nat := c.last + 1 - c.first

/-- The memory of two chunks is apart. -/
def Chunk.Apart (c d : Chunk) : Prop := c.base + c.size ≤ d.base ∨ d.base + d.size ≤ c.base

/-- What `new` does: the memory of a new chunk has the alignment of the target, and is apart from that of the other
chunks in memory. -/
def NewSupplied (target : Target) (s s' : Stack2) : Prop :=
  ∀ c, s.fresh < s'.fresh → s'.heap s.fresh = some c →
    target.maxAlign ∣ c.base ∧ ∀ k d, s'.heap k = some d → k ≠ s.fresh → c.Apart d

/-- The call is supplied with memory. -/
def Supplied (target : Target) (client : Client) (op : Operation) : Prop :=
  ∀ client', client.step target op = .ok client' → NewSupplied target client.stack client'.stack

end Ghdl.Secondary
