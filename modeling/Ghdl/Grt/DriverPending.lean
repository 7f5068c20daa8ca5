import Ghdl.Grt.DriverWaveform
import Ghdl.Grt.NextTime
import Ghdl.Grt.Propagation

/-!
# The pending transactions of a driver

`Driver.pending` reads the transactions after `First_Trans` off the heap. Every operation on a sound
driver is described by what it does to that list, so that results about signals do not mention heaps.
-/

namespace Ghdl.Grt

open Linked

/-- The transactions of the cells from a pointer on. -/
def TransHeap.toList (heap : TransHeap) : Nat → Option TransPtr → List Transaction
  | _, none => []
  | 0, some _ => []
  | fuel + 1, some p =>
    match heap.cell p with
    | none => []
    | some cell => cell.toTransaction :: heap.toList fuel cell.next

theorem TransHeap.Chain.toList {heap : TransHeap} {p : Option TransPtr} {l : List TransEntry}
    {fuel : Nat} (chain : heap.Chain p l none) (fits : l.length ≤ fuel) : heap.toList fuel p = l.map Prod.snd := by
  induction l generalizing p fuel with
  | nil =>
    obtain rfl := TransHeap.chain_nil.mp chain
    cases fuel <;> rfl
  | cons e l ih =>
    obtain ⟨fuel, rfl⟩ := Fallible.fuel_succ fits
    obtain ⟨rfl, r, found, rest⟩ := TransHeap.chain_cons.mp chain
    have tail := ih rest (by simpa using fits)
    simp only [TransHeap.toList, found, tail, List.map_cons]

namespace Driver

/-- The transactions after the current one. -/
def pending (driver : Driver) : List Transaction :=
  match driver.heap.cell driver.firstTrans with
  | none => []
  | some first => driver.heap.toList driver.heap.fresh first.next

/-- The driver holds an ascending list of transactions. -/
def Sound (driver : Driver) : Prop :=
  ∃ first pending, driver.Holds first pending ∧ Ascending pending

variable {driver driver' : Driver} {first : TransEntry} {entries : List TransEntry} {now : Int}

theorem Holds.pending (holds : driver.Holds first entries) : driver.pending = entries.map Prod.snd := by
  have fits := holds.chain.length_le holds.unused
  simp only [List.length_cons] at fits
  rw [Driver.pending, holds.firstCell]
  exact holds.rest.toList (by omega)

theorem create_sound (proc : ProcId) (val : ValueUnion) : (create proc val).Sound :=
  ⟨_, [], create_holds proc val, .nil⟩

end Driver

end Ghdl.Grt
