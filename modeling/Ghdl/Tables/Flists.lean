import Mathlib
import Ghdl.System.Fallible
import Ghdl.System.Run

/-!
# Lists of fixed length

The elements of a list of fixed length are consecutive entries of a table. A list that is destroyed keeps its elements
and is put on the free list of its length; the large ones share one list. The free lists are linked by the length of the
descriptor, or by the first element of a large list.
-/

namespace Ghdl.Tables

open Fallible Function

/-- `Free_Flists'Last`. -/
def freeLast : Nat := 16

/-- `Entry_Type`. -/
structure EntryType where
  els : Nat
  len : Nat
deriving DecidableEq, Repr

/-- The descriptors with the index of the last one, the table of elements with their number, and the free lists. -/
structure Flists where
  flistt : Nat → EntryType
  flistLast : Nat
  els : Nat → Nat
  elsNbr : Nat
  freeFlists : Nat → Nat

/-- An index is not that of an entry of a table, an assertion fails, or a loop doesn't exit. -/
inductive FlistError where
  | index
  | assertion
  | noExit
deriving DecidableEq, Repr

namespace Flists

/-- The tables when they are initialized. -/
def init : Flists := ⟨fun _ => ⟨0, 0⟩, 3, fun _ => 0, 0, fun _ => 0⟩

/-- `Flistt.Table (Flist)`. -/
def entry (s : Flists) (f : Nat) : Except FlistError EntryType :=
  if 4 ≤ f ∧ f ≤ s.flistLast then .ok (s.flistt f) else .error .index

/-- `Flistt.Table (Flist).Len := Len`. -/
def setLen (s : Flists) (f len : Nat) : Except FlistError Flists :=
  if 4 ≤ f ∧ f ≤ s.flistLast then .ok { s with flistt := update s.flistt f { s.flistt f with len := len } }
  else .error .index

/-- `Els.Table (Idx)`. -/
def element (s : Flists) (idx : Nat) : Except FlistError Nat :=
  if idx < s.elsNbr then .ok (s.els idx) else .error .index

/-- `Els.Table (Idx) := V`. -/
def setElement (s : Flists) (idx v : Nat) : Except FlistError Flists :=
  if idx < s.elsNbr then .ok { s with els := update s.els idx v } else .error .index

/-- `Length`. -/
def length (s : Flists) (f : Nat) : Except FlistError Nat := do
  let e ← s.entry f
  .ok e.len

/-- `Free_Next`. -/
def freeNext (s : Flists) (f : Nat) : Except FlistError Nat := do
  let e ← s.entry f
  s.element e.els

/-- The loop over the large free lists, for one of this length and the list before it. -/
def findLarge (s : Flists) (len : Nat) : Nat → Nat → Nat → Except FlistError (Nat × Nat)
  | 0, _, _ => .error .noExit
  | fuel + 1, prev, res =>
    if res = 0 then .ok (prev, res)
    else do
      let n ← s.length res
      if n ≠ len then do
        let next ← s.freeNext res
        findLarge s len fuel res next
      else .ok (prev, res)

/-- A large free list of this length is taken, if there is one. -/
def takeLarge (s : Flists) (len : Nat) : Except FlistError (Flists × Nat) := do
  let (prev, res) ← s.findLarge len (s.flistLast + 2) 0 (s.freeFlists freeLast)
  if res = 0 then .ok (s, res)
  else do
    let next ← s.freeNext res
    if prev = 0 then .ok ({ s with freeFlists := update s.freeFlists freeLast next }, res)
    else do
      let e ← s.entry prev
      let s ← s.setElement e.els next
      .ok (s, res)

/-- A small free list of this length is taken, if there is one. -/
def takeSmall (s : Flists) (len : Nat) : Except FlistError (Flists × Nat) :=
  let res := s.freeFlists len
  if res = 0 then .ok (s, res)
  else do
    let e ← s.entry res
    let s ← Flists.setLen { s with freeFlists := update s.freeFlists len e.len } res len
    .ok (s, res)

/-- A new descriptor. -/
def newEntry (s : Flists) (e : EntryType) : Flists × Nat :=
  ({ s with flistt := update s.flistt (s.flistLast + 1) e, flistLast := s.flistLast + 1 }, s.flistLast + 1)

/-- `Clear the list`. -/
def clear (s : Flists) (f len : Nat) : Except FlistError Flists := do
  let e ← s.entry f
  if len = 0 ∨ e.els + len ≤ s.elsNbr then
    .ok { s with els := fun i => if e.els ≤ i ∧ i < e.els + len then 0 else s.els i }
  else .error .index

/-- The end of `Create_Flist`: without a free list, a new one is allocated. -/
def finish (len : Nat) (taken : Flists × Nat) : Except FlistError (Flists × Nat) := do
  let (s, res) := if taken.2 = 0 then Flists.newEntry { taken.1 with elsNbr := taken.1.elsNbr + len } ⟨taken.1.elsNbr, len⟩
    else taken
  let s ← s.clear res len
  .ok (s, res)

/-- `Create_Flist`. -/
def createFlist (s : Flists) (len : Nat) : Except FlistError (Flists × Nat) :=
  if freeLast ≤ len then do
    let taken ← s.takeLarge len
    finish len taken
  else do
    let taken ← s.takeSmall len
    if taken.2 = 0 ∧ len = 0 then .ok (taken.1.newEntry ⟨0, 0⟩) else finish len taken

/-- `Destroy_Flist`. -/
def destroyFlist (s : Flists) (f : Nat) : Except FlistError Flists := do
  let len ← s.length f
  if freeLast ≤ len then do
    let prev := s.freeFlists freeLast
    let e ← s.entry f
    Flists.setElement { s with freeFlists := update s.freeFlists freeLast f } e.els prev
  else
    let prev := s.freeFlists len
    Flists.setLen { s with freeFlists := update s.freeFlists len f } f prev

/-- `Get_Nth_Element`. -/
def getNthElement (s : Flists) (f n : Nat) : Except FlistError Nat := do
  let e ← s.entry f
  if n < e.len then s.element (e.els + n) else .error .assertion

/-- `Set_Nth_Element`. -/
def setNthElement (s : Flists) (f n v : Nat) : Except FlistError Flists := do
  let e ← s.entry f
  if n < e.len then s.setElement (e.els + n) v else .error .assertion

end Flists

/-- The tables, and the live lists with their elements. -/
structure FlistClient where
  flists : Flists
  contents : Nat → Option (List Nat)

/-- A call. -/
inductive FlistCall where
  | create (len : Nat)
  | destroy (f : Nat)
  | set (f n v : Nat)
deriving DecidableEq, Repr

/-- The effect of a call. The elements of a new list are null. -/
def FlistClient.step (client : FlistClient) : FlistCall → Except FlistError FlistClient
  | .create len => do
    let (flists, f) ← client.flists.createFlist len
    .ok ⟨flists, update client.contents f (some (List.replicate len 0))⟩
  | .destroy f => do
    let flists ← client.flists.destroyFlist f
    .ok ⟨flists, update client.contents f none⟩
  | .set f n v => do
    let flists ← client.flists.setNthElement f n v
    .ok ⟨flists, update client.contents f ((client.contents f).map (·.set n v))⟩

/-- The calls are about live lists, and about elements that they have. -/
def FlistCall.enabled (client : FlistClient) : FlistCall → Bool
  | .create _ => true
  | .destroy f => (client.contents f).isSome
  | .set f n _ => n < ((client.contents f).getD []).length

def flistSystem : Transition.System FlistClient FlistCall FlistError where
  enabled := fun client call => call.enabled client
  step := FlistClient.step

/-- No list has been created. -/
def FlistClient.init : FlistClient := ⟨Flists.init, fun _ => none⟩

end Ghdl.Tables
