import Mathlib
import Ghdl.Linked.Family
import Ghdl.System.Fallible
import Ghdl.System.Run

/-!
# Lists of nodes

A list is a descriptor and a chain of chunks of seven elements. The chunks of a list that is destroyed go to a list of
free chunks, which is shared, and its descriptor to a chain of free descriptors, that is linked by their Chunk_Idx.
-/

namespace Ghdl.Tables

open Fallible Linked Function

/-- `Chunk_Len`. -/
def chunkLen : Nat := 7

/-- `List_Record`. -/
structure ListRecord where
  first : Nat
  last : Nat
  chunkIdx : Nat
  nbr : Nat
deriving DecidableEq, Repr

/-- `Chunk_Type`. -/
structure ChunkType where
  next : Nat
  els : Nat → Nat

/-- The tables of lists and of chunks, with the indexes of their last entries, and the heads of the free ones. -/
structure Lists where
  listt : Nat → ListRecord
  listLast : Nat
  chunkt : Nat → ChunkType
  chunkLast : Nat
  chunkFreeList : Nat
  listFreeChain : Nat

/-- An index is not that of an entry of a table, or a loop doesn't exit. -/
inductive TableError where
  | index
  | noExit
deriving DecidableEq, Repr

/-- `Iterator`. -/
structure Iterator where
  chunk : Nat
  chunkIdx : Nat
  remain : Nat
deriving DecidableEq, Repr

/-- The tables when they are initialized. -/
def Lists.init : Lists where
  listt _ := ⟨0, 0, 0, 0⟩
  listLast := 1
  chunkt _ := ⟨0, fun _ => 0⟩
  chunkLast := 0
  chunkFreeList := 0
  listFreeChain := 0

namespace Lists

/-- `Listt.Table (List)`. -/
def list (s : Lists) (l : Nat) : Except TableError ListRecord :=
  if 2 ≤ l ∧ l ≤ s.listLast then .ok (s.listt l) else .error .index

/-- `Chunkt.Table (Idx)`. -/
def chunk (s : Lists) (c : Nat) : Except TableError ChunkType :=
  if 1 ≤ c ∧ c ≤ s.chunkLast then .ok (s.chunkt c) else .error .index

/-- An assignment to a list. -/
def setList (s : Lists) (l : Nat) (r : ListRecord) : Except TableError Lists :=
  if 2 ≤ l ∧ l ≤ s.listLast then .ok { s with listt := update s.listt l r } else .error .index

/-- An assignment to a chunk. -/
def setChunk (s : Lists) (c : Nat) (r : ChunkType) : Except TableError Lists :=
  if 1 ≤ c ∧ c ≤ s.chunkLast then .ok { s with chunkt := update s.chunkt c r } else .error .index

/-- `Free_Chunk`. -/
def freeChunk (s : Lists) (idx : Nat) : Except TableError Lists := do
  let c ← s.chunk idx
  let s ← s.setChunk idx { c with next := s.chunkFreeList }
  .ok { s with chunkFreeList := idx }

/-- `Get_Free_Chunk`: the new entry of the table has any contents. -/
def getFreeChunk (s : Lists) : Except TableError (Lists × Nat) :=
  if s.chunkFreeList ≠ 0 then do
    let res := s.chunkFreeList
    let c ← s.chunk res
    .ok ({ s with chunkFreeList := c.next }, res)
  else .ok ({ s with chunkLast := s.chunkLast + 1 }, s.chunkLast + 1)

/-- `Get_Nbr_Elements`. -/
def getNbrElements (s : Lists) (l : Nat) : Except TableError Nat := do
  let r ← s.list l
  .ok r.nbr

/-- The new chunk behind the list. -/
def link (s : Lists) (r : ListRecord) (c : Nat) : Except TableError (Lists × ListRecord) :=
  if r.nbr = 0 then .ok (s, { r with first := c })
  else do
    let k ← s.chunk r.last
    let s ← s.setChunk r.last { k with next := c }
    .ok (s, r)

/-- `Append_Element`. -/
def appendElement (s : Lists) (l element : Nat) : Except TableError Lists := do
  let r ← s.list l
  let r := { r with chunkIdx := r.chunkIdx + 1 }
  if r.chunkIdx < chunkLen then do
    let k ← s.chunk r.last
    let s ← s.setChunk r.last { k with els := update k.els r.chunkIdx element }
    s.setList l { r with nbr := r.nbr + 1 }
  else do
    let (s, c) ← s.getFreeChunk
    let k ← s.chunk c
    let s ← s.setChunk c { next := 0, els := update k.els 0 element }
    let r := { r with chunkIdx := 0 }
    let (s, r) ← s.link r c
    s.setList l { r with last := c, nbr := r.nbr + 1 }

/-- The descriptor of `Create_List`. -/
def newList (s : Lists) : Except TableError (Lists × Nat) :=
  if s.listFreeChain = 0 then .ok ({ s with listLast := s.listLast + 1 }, s.listLast + 1)
  else do
    let res := s.listFreeChain
    let r ← s.list res
    .ok ({ s with listFreeChain := r.chunkIdx }, res)

/-- `Create_List`. -/
def createList (s : Lists) : Except TableError (Lists × Nat) := do
  let (s, res) ← s.newList
  let s ← s.setList res { first := 0, last := 0, chunkIdx := chunkLen, nbr := 0 }
  .ok (s, res)

/-- The loop of `Destroy_List`. -/
def freeChunks : Nat → Nat → Lists → Except TableError Lists
  | 0, _, _ => .error .noExit
  | fuel + 1, c, s =>
    if c = 0 then .ok s
    else do
      let k ← s.chunk c
      let s ← s.freeChunk c
      freeChunks fuel k.next s

/-- `Destroy_List`. -/
def destroyList (s : Lists) (l : Nat) : Except TableError Lists :=
  if l = 0 then .ok s
  else do
    let r ← s.list l
    let s ← freeChunks (s.chunkLast + 1) r.first s
    let r ← s.list l
    let s ← s.setList l { r with chunkIdx := s.listFreeChain }
    .ok { s with listFreeChain := l }

/-- `Iterate`. -/
def iterate (s : Lists) (l : Nat) : Except TableError Iterator := do
  let r ← s.list l
  .ok { chunk := r.first, chunkIdx := 0, remain := r.nbr }

/-- `Next`. -/
def next (s : Lists) (it : Iterator) : Except TableError Iterator :=
  if it.chunkIdx + 1 = chunkLen then do
    let k ← s.chunk it.chunk
    .ok { chunk := k.next, chunkIdx := 0, remain := it.remain - 1 }
  else .ok { it with chunkIdx := it.chunkIdx + 1, remain := it.remain - 1 }

/-- `Get_Element`. -/
def getElement (s : Lists) (it : Iterator) : Except TableError Nat := do
  let k ← s.chunk it.chunk
  if it.chunkIdx < chunkLen then .ok (k.els it.chunkIdx) else .error .index

end Lists

/-- `Is_Valid`. -/
def Iterator.isValid (it : Iterator) : Bool := 0 < it.remain

/-- The usual loop over a list. -/
def Lists.visit (s : Lists) : Nat → Iterator → Except TableError (List Nat)
  | 0, _ => .error .noExit
  | fuel + 1, it =>
    if it.isValid then do
      let el ← s.getElement it
      let it ← s.next it
      let els ← Lists.visit s fuel it
      .ok (el :: els)
    else .ok []

/-- The elements that a list enumerates. -/
def Lists.enumerate (s : Lists) (l : Nat) : Except TableError (List Nat) := do
  let nbr ← s.getNbrElements l
  let it ← s.iterate l
  s.visit (nbr + 1) it

/-- An iterator of a list, with the elements of the list when it was made and those that it has returned. -/
structure Cursor where
  list : Nat
  it : Iterator
  start : List Nat
  seen : List Nat

/-- The tables, the live lists with the elements that have been appended to them, and the iterators in use. -/
structure ListClient where
  lists : Lists
  contents : Nat → Option (List Nat)
  cursors : List Cursor

/-- A call. The iterators are numbered. -/
inductive ListCall where
  | create
  | append (l element : Nat)
  | destroy (l : Nat)
  | iterate (l : Nat)
  | next (n : Nat)
deriving DecidableEq, Repr

/-- The next element of an iterator, while it is valid. -/
def Cursor.advance (s : Lists) (cursor : Cursor) : Except TableError Cursor :=
  if cursor.it.isValid then do
    let el ← s.getElement cursor.it
    let it ← s.next cursor.it
    .ok { cursor with it := it, seen := cursor.seen ++ [el] }
  else .ok cursor

/-- The effect of a call. The iterators of a list that is destroyed are not used any more. -/
def ListClient.step (client : ListClient) : ListCall → Except TableError ListClient
  | .create => do
    let (lists, l) ← client.lists.createList
    .ok { client with lists := lists, contents := update client.contents l (some []) }
  | .append l element => do
    let lists ← client.lists.appendElement l element
    let contents := (client.contents l).map (· ++ [element])
    .ok { client with lists := lists, contents := update client.contents l contents }
  | .destroy l => do
    let lists ← client.lists.destroyList l
    .ok ⟨lists, update client.contents l none, client.cursors.filter fun cursor => cursor.list ≠ l⟩
  | .iterate l => do
    let it ← client.lists.iterate l
    .ok { client with cursors := ⟨l, it, (client.contents l).getD [], []⟩ :: client.cursors }
  | .next n =>
    match client.cursors[n]? with
    | none => .ok client
    | some cursor => do
      let cursor ← cursor.advance client.lists
      .ok { client with cursors := client.cursors.set n cursor }

/-- The calls are about live lists. -/
def ListCall.enabled (client : ListClient) : ListCall → Bool
  | .create | .next _ => true
  | .append l _ | .destroy l | .iterate l => (client.contents l).isSome

def listSystem : Transition.System ListClient ListCall TableError where
  enabled := fun client call => call.enabled client
  step := ListClient.step

/-- No list has been created. -/
def ListClient.init : ListClient := ⟨Lists.init, fun _ => none, []⟩

end Ghdl.Tables
