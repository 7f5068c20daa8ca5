import Mathlib
import Ghdl.Linked.Segment

/-!
# The table of nodes

Nodes have the short format, in one slot of the table, or the medium format, in two slots from an even index on. Freed
slots and slots left for the alignment are chained, and the chain is used again for short nodes only. The table is
walked from its first node on, by the formats in the slots. A freed medium node keeps its format, so that its second
slot is not walked any more, even when it is used again; and the chain is not cleared with the table.
-/

namespace Ghdl.NodeTable

open Linked Function

/-- `Format_Type`. -/
inductive FormatType
  | short
  | medium
deriving DecidableEq

theorem FormatType.medium_of_ne {format : FormatType} (notShort : format ≠ .short) : format = .medium := by
  cases format with
  | short => exact absurd rfl notShort
  | medium => rfl

/-- `Node_Record`, with the fields that the table itself uses. -/
structure NodeRecord where
  format : FormatType
  kind : Nat
  field1 : Nat
deriving DecidableEq

/-- `Init_Node`. -/
def initNode : NodeRecord := { format := .short, kind := 0, field1 := 0 }

/-- `Nodet`, with what the memory after its last slot holds, and `Free_Chain`. `Null_Node` is 0. -/
structure Nodet where
  table : Nat → NodeRecord
  last : Nat
  freeChain : Nat

namespace Nodet

/-- `Nodet.Table (N) := R`. -/
def setRecord (t : Nodet) (n : Nat) (r : NodeRecord) : Nodet := { t with table := update t.table n r }

/-- `Increment_Last`. The new slot holds anything. -/
def incrementLast (t : Nodet) (fresh : Nat → NodeRecord) : Nodet :=
  { t.setRecord (t.last + 1) (fresh (t.last + 1)) with last := t.last + 1 }

/-- `Get_Field1`. -/
def getField1 (t : Nodet) (n : Nat) : Nat := (t.table n).field1

/-- `Set_Field1`. -/
def setField1 (t : Nodet) (n v : Nat) : Nodet := t.setRecord n { t.table n with field1 := v }

/-- `Set_Nkind`. -/
def setNkind (t : Nodet) (n kind : Nat) : Nodet := t.setRecord n { t.table n with kind }

/-- A slot is put on the free chain. -/
def pushFree (t : Nodet) (n : Nat) : Nodet := { t.setField1 n t.freeChain with freeChain := n }

/-- `Create_Node`. -/
def createNode (t : Nodet) (fresh : Nat → NodeRecord) : FormatType → Nat × Nodet
  | .medium =>
    -- Allocate a first node.
    let t := t.incrementLast fresh
    -- Check alignment.
    let t := if t.last % 2 = 1 then (t.pushFree t.last).incrementLast fresh else t
    let res := t.last
    -- Allocate the second node.
    let t := t.incrementLast fresh
    (res, (t.setRecord res { initNode with format := .medium }).setRecord (res + 1) initNode)
  | .short =>
    -- Check from free pool.
    if t.freeChain = 0 then
      let t := t.incrementLast fresh
      (t.last, t.setRecord t.last initNode)
    else
      (t.freeChain, { t.setRecord t.freeChain initNode with freeChain := t.getField1 t.freeChain })

/-- `Free_Node`. -/
def freeNode (t : Nodet) (n : Nat) : Nodet :=
  if n = 0 then t
  else
    let t := (t.setNkind n 0).pushFree n
    if (t.table n).format = .medium then t.pushFree (n + 1) else t

/-- `Next_Node`. -/
def nextNode (t : Nodet) (n : Nat) : Nat :=
  match (t.table n).format with
  | .medium => n + 2
  | .short => n + 1

/-- `Initialize`. The table is allocated again, the free chain stays. -/
def initializeNodes (t : Nodet) (fresh : Nat → NodeRecord) : Nodet := { t with table := fresh, last := 1 }

/-- The nodes that are visited from a node on, for so many steps at most. -/
def walk (t : Nodet) : Nat → Nat → List Nat
  | 0, _ => []
  | steps + 1, n => if n ≤ t.last then n :: t.walk steps (t.nextNode n) else []

/-- The nodes that are visited from the first one to `Get_Last_Node`. -/
def nodes (t : Nodet) : List Nat := t.walk t.last 2

/-- A field as a link. -/
def link (v : Nat) : Option Nat := if v = 0 then none else some v

/-- The links of the free chain. `Null_Node` and `Error_Node` are no slots. -/
def links (t : Nodet) (n : Nat) : Option (Option Nat) := if n < 2 then none else some (link (t.getField1 n))

/-- The free chain has these slots. -/
def Chain (t : Nodet) (l : List Nat) : Prop := Segment t.links (link t.freeChain) l none

/-- The free chain reaches a slot. -/
def OnChain (t : Nodet) (n : Nat) : Prop := ∃ l, Segment t.links (link t.freeChain) l (some n)

end Nodet

/-- The table, and the nodes that were created and not freed. -/
structure State where
  nodet : Nodet
  live : List (Nat × FormatType)

/-- The slots of a node. -/
def slots : Nat × FormatType → List Nat
  | (n, .short) => [n]
  | (n, .medium) => [n, n + 1]

/-- The slots of the live nodes. -/
def State.slots (s : State) : List Nat := s.live.flatMap NodeTable.slots

/-- The calls, with what the new slots hold. -/
inductive Operation
  | createNode (format : FormatType) (fresh : Nat → NodeRecord)
  | freeNode (n : Nat)
  | initializeNodes (fresh : Nat → NodeRecord)

/-- The node is not live. -/
structure NotLive where
  node : Nat

/-- One call. Only live nodes are freed. -/
def execute (s : State) : Operation → Except NotLive State
  | .createNode format fresh =>
    let (n, nodet) := s.nodet.createNode fresh format
    .ok { nodet, live := (n, format) :: s.live }
  | .freeNode n =>
    match s.live.find? fun e => e.1 = n with
    | none => .error ⟨n⟩
    | some e => .ok { nodet := s.nodet.freeNode n, live := s.live.erase e }
  | .initializeNodes fresh => .ok { nodet := s.nodet.initializeNodes fresh, live := [] }

/-- The table is empty, its memory holds anything. -/
def start (table : Nat → NodeRecord) : State := { nodet := { table, last := 1, freeChain := 0 }, live := [] }

/-- What the table is for: the live nodes have their own slots, none of which is free, and all of them are walked. -/
structure Sound (s : State) : Prop where
  /-- The slots are in the table. -/
  inside : ∀ e ∈ s.live, ∀ slot ∈ slots e, 2 ≤ slot ∧ slot ≤ s.nodet.last
  /-- Medium nodes start at an even index. -/
  aligned : ∀ n, (n, .medium) ∈ s.live → n % 2 = 0
  /-- No slot is used twice. -/
  disjoint : s.slots.Nodup
  /-- The free chain ends, repeats no slot and has none of a live node. -/
  chain : ∃ l, s.nodet.Chain l ∧ l.Nodup ∧ ∀ slot ∈ l, slot ∉ s.slots
  /-- All live nodes are visited. -/
  visited : ∀ e ∈ s.live, e.1 ∈ s.nodet.nodes

namespace Nodet

variable {t t' : Nodet} {n m : Nat}

/-- A node that is visited from the first one on. -/
inductive Visited (t : Nodet) : Nat → Prop
  | first : Visited t 2
  | next {n : Nat} (visited : Visited t n) (inside : n ≤ t.last) : Visited t (t.nextNode n)

theorem lt_nextNode (t : Nodet) (n : Nat) : n < t.nextNode n := by
  unfold nextNode
  split
  · omega
  · omega

theorem visited_of_mem_walk {steps : Nat} (visited : t.Visited m) (member : n ∈ t.walk steps m) :
    t.Visited n ∧ n ≤ t.last := by
  induction steps generalizing m with
  | zero => exact absurd member List.not_mem_nil
  | succ steps ih =>
    unfold walk at member
    split at member
    · next inside =>
      cases member with
      | head => exact ⟨visited, inside⟩
      | tail _ member => exact ih (visited.next inside) member
    · exact absurd member List.not_mem_nil

theorem nextNode_mem_walk {steps : Nat} (enough : t.last < m + steps) (member : n ∈ t.walk steps m)
    (inside : t.nextNode n ≤ t.last) : t.nextNode n ∈ t.walk steps m := by
  induction steps generalizing m with
  | zero => exact absurd member List.not_mem_nil
  | succ steps ih =>
    unfold walk at member ⊢
    have further := t.lt_nextNode m
    split at member
    · next here =>
      rw [if_pos here]
      apply List.mem_cons_of_mem
      cases member with
      | head =>
        cases steps with
        | zero => omega
        | succ steps =>
          unfold walk
          rw [if_pos inside]
          exact List.mem_cons_self
      | tail _ member => exact ih (by omega) member
    · exact absurd member List.not_mem_nil

theorem mem_nodes : n ∈ t.nodes ↔ t.Visited n ∧ n ≤ t.last := by
  constructor
  · exact visited_of_mem_walk .first
  intro ⟨visited, inside⟩
  induction visited with
  | first =>
    unfold nodes
    cases isLast : t.last with
    | zero => omega
    | succ last =>
      unfold walk
      rw [if_pos inside]
      exact List.mem_cons_self
  | next visited before ih => exact nextNode_mem_walk (by omega) (ih before) inside

/-- A slot of the medium format is followed by one of the short format. -/
def Paired (t : Nodet) : Prop :=
  ∀ n, 2 ≤ n → n ≤ t.last → (t.table n).format = .medium → n < t.last ∧ (t.table (n + 1)).format = .short

/-- The slot before is not the first one of a medium node. -/
def Starts (t : Nodet) (n : Nat) : Prop := n = 2 ∨ (t.table (n - 1)).format = .short

theorem nextNode_short (short : (t.table n).format = .short) : t.nextNode n = n + 1 := by
  unfold nextNode
  rw [short]

theorem nextNode_medium (medium : (t.table n).format = .medium) : t.nextNode n = n + 2 := by
  unfold nextNode
  rw [medium]

theorem format_cases (t : Nodet) (n : Nat) : (t.table n).format = .short ∨ (t.table n).format = .medium :=
  or_iff_not_imp_left.mpr FormatType.medium_of_ne

theorem Visited.starts (visited : t.Visited n) (paired : t.Paired) (bound : 1 ≤ t.last) :
    2 ≤ n ∧ n ≤ t.last + 1 ∧ t.Starts n := by
  induction visited with
  | first => exact ⟨Nat.le_refl 2, by omega, Or.inl rfl⟩
  | @next m visited inside ih =>
    rcases t.format_cases m with short | medium
    · rw [nextNode_short short]
      exact ⟨by omega, by omega, Or.inr short⟩
    · rw [nextNode_medium medium]
      have pair := paired m ih.1 inside medium
      exact ⟨by omega, by omega, Or.inr pair.2⟩

theorem Starts.visited (paired : t.Paired) (lower : 2 ≤ n) (upper : n ≤ t.last + 1) (starts : t.Starts n) : t.Visited n := by
  induction n using Nat.strongRecOn with
  | ind n ih =>
    rcases starts with rfl | short
    · exact .first
    by_cases first : n = 2
    · exact first ▸ .first
    have before : n - 1 + 1 = n := by omega
    by_cases starts : t.Starts (n - 1)
    · have step := (ih (n - 1) (by omega) (by omega) (by omega) starts).next (by omega)
      rw [nextNode_short short, before] at step
      exact step
    -- The slot before is the second one of a medium node, which is visited itself.
    have notFirst : n - 1 ≠ 2 := fun isFirst => starts (Or.inl isFirst)
    have medium : (t.table (n - 2)).format = .medium :=
      (t.format_cases (n - 2)).resolve_left fun short => starts (Or.inr short)
    have start : t.Starts (n - 2) := by
      by_cases isFirst : n - 2 = 2
      · exact Or.inl isFirst
      · refine Or.inr ((t.format_cases _).resolve_right fun before => ?_)
        have pair := paired (n - 2 - 1) (by omega) (by omega) before
        rw [show n - 2 - 1 + 1 = n - 2 by omega, medium] at pair
        exact absurd pair.2 (by decide)
    have step := (ih (n - 2) (by omega) (by omega) (by omega) start).next (by omega)
    rw [nextNode_medium medium, show n - 2 + 2 = n by omega] at step
    exact step

theorem mem_nodes_iff (paired : t.Paired) (bound : 1 ≤ t.last) : n ∈ t.nodes ↔ 2 ≤ n ∧ n ≤ t.last ∧ t.Starts n := by
  rw [mem_nodes]
  constructor
  · intro ⟨visited, inside⟩
    have starts := visited.starts paired bound
    exact ⟨starts.1, inside, starts.2.2⟩
  · intro ⟨lower, inside, starts⟩
    exact ⟨starts.visited paired lower (by omega), inside⟩

theorem link_of_pos (pos : 0 < n) : link n = some n := if_neg (Nat.ne_of_gt pos)

theorem Chain.lower (chain : t.Chain l) : ∀ slot ∈ l, 2 ≤ slot := by
  intro slot inside
  obtain ⟨r, linked⟩ := chain.allocated slot inside
  unfold links at linked
  split at linked
  · cases linked
  · omega

theorem onChain_iff (chain : t.Chain l) : t.OnChain n ↔ n ∈ l := by
  constructor
  · intro ⟨front, reached⟩
    obtain ⟨back, isAll⟩ := Segment.initial reached chain
    rw [isAll]
    exact List.mem_append_right front List.mem_cons_self
  · intro inside
    obtain ⟨front, back, rfl⟩ := List.append_of_mem inside
    obtain ⟨r, before, after⟩ := Segment.append_iff.mp chain
    exact ⟨front, after.1 ▸ before⟩

theorem not_onChain_of_empty (empty : t.freeChain = 0) : ¬ t.OnChain n := by
  intro ⟨l, reached⟩
  rw [empty] at reached
  cases l with
  | nil => cases reached
  | cons slot l => cases reached.1

theorem Chain.eq_nil (chain : t.Chain l) (empty : t.freeChain = 0) : l = [] :=
  List.eq_nil_iff_forall_not_mem.mpr fun _ inside => not_onChain_of_empty empty ((onChain_iff chain).mpr inside)

/-- Slots keep their links unless their records are written. -/
theorem links_congr (same : (t'.table n).field1 = (t.table n).field1) : t'.links n = t.links n := by
  unfold links getField1
  rw [same]

theorem Chain.congr (chain : t.Chain l) (head : t'.freeChain = t.freeChain)
    (same : ∀ slot ∈ l, (t'.table slot).field1 = (t.table slot).field1) : t'.Chain l := by
  unfold Chain
  rw [head]
  exact (Segment.congr fun slot inside => links_congr (same slot inside)).mpr chain

theorem pushFree_table (t : Nodet) (n : Nat) :
    (t.pushFree n).table = update t.table n { t.table n with field1 := t.freeChain } := rfl

theorem pushFree_table_other (different : m ≠ n) : (t.pushFree n).table m = t.table m := by
  rw [pushFree_table, update_of_ne different]

@[simp] theorem pushFree_format (t : Nodet) (n m : Nat) : ((t.pushFree n).table m).format = (t.table m).format := by
  rw [pushFree_table]
  by_cases same : m = n
  · rw [same, update_self]
  · rw [update_of_ne same]

@[simp] theorem pushFree_freeChain (t : Nodet) (n : Nat) : (t.pushFree n).freeChain = n := rfl

theorem pushFree_links (lower : 2 ≤ n) : (t.pushFree n).links n = some (link t.freeChain) := by
  unfold links getField1
  rw [if_neg (by omega), pushFree_table, update_self]

@[simp] theorem setNkind_format (t : Nodet) (n kind m : Nat) :
    ((t.setNkind n kind).table m).format = (t.table m).format := by
  unfold setNkind setRecord
  dsimp only
  by_cases same : m = n
  · rw [same, update_self]
  · rw [update_of_ne same]

@[simp] theorem setNkind_field1 (t : Nodet) (n kind m : Nat) :
    ((t.setNkind n kind).table m).field1 = (t.table m).field1 := by
  unfold setNkind setRecord
  dsimp only
  by_cases same : m = n
  · rw [same, update_self]
  · rw [update_of_ne same]

theorem Chain.push (chain : t.Chain l) (lower : 2 ≤ n) (outside : n ∉ l) : (t.pushFree n).Chain (n :: l) := by
  refine ⟨link_of_pos (by rw [pushFree_freeChain]; omega), _, pushFree_links lower, ?_⟩
  refine (Segment.congr fun slot inside => links_congr ?_).mpr chain
  rw [pushFree_table_other (ne_of_mem_of_not_mem inside outside)]

theorem freeNode_short (lower : 2 ≤ n) (short : (t.table n).format = .short) :
    t.freeNode n = (t.setNkind n 0).pushFree n := by
  unfold freeNode
  rw [if_neg (by omega)]
  dsimp only
  rw [pushFree_format, setNkind_format, short]
  rfl

theorem freeNode_medium (lower : 2 ≤ n) (medium : (t.table n).format = .medium) :
    t.freeNode n = ((t.setNkind n 0).pushFree n).pushFree (n + 1) := by
  unfold freeNode
  rw [if_neg (by omega)]
  dsimp only
  rw [pushFree_format, setNkind_format, medium]
  rfl

theorem freeNode_format (lower : 2 ≤ n) (m : Nat) : ((t.freeNode n).table m).format = (t.table m).format := by
  rcases t.format_cases n with short | medium
  · rw [freeNode_short lower short, pushFree_format, setNkind_format]
  · rw [freeNode_medium lower medium, pushFree_format, pushFree_format, setNkind_format]

theorem freeNode_last (lower : 2 ≤ n) : (t.freeNode n).last = t.last := by
  rcases t.format_cases n with short | medium
  · rw [freeNode_short lower short]
    rfl
  · rw [freeNode_medium lower medium]
    rfl

theorem second_mem_slots (n : Nat) : n + 1 ∈ slots (n, .medium) := List.mem_cons_of_mem n (List.mem_singleton.mpr rfl)

theorem Chain.freeNode (chain : t.Chain l) (lower : 2 ≤ n) (outside : ∀ slot ∈ slots (n, (t.table n).format), slot ∉ l) :
    ∃ l', (t.freeNode n).Chain l' ∧ ∀ slot ∈ l', slot ∈ slots (n, (t.table n).format) ∨ slot ∈ l := by
  have unlinked : (t.setNkind n 0).Chain l := chain.congr rfl fun slot _ => setNkind_field1 t n 0 slot
  rcases t.format_cases n with short | medium
  · rw [short] at outside ⊢
    rw [freeNode_short lower short]
    refine ⟨n :: l, unlinked.push lower (outside n List.mem_cons_self), fun slot inside => ?_⟩
    exact (List.mem_cons.mp inside).imp_left fun (same : slot = n) => same ▸ List.mem_cons_self
  rw [medium] at outside ⊢
  rw [freeNode_medium lower medium]
  have first := unlinked.push lower (outside n List.mem_cons_self)
  have apart : n + 1 ∉ n :: l := by
    rw [List.mem_cons]
    rintro (same | inside)
    · omega
    · exact outside (n + 1) (second_mem_slots n) inside
  refine ⟨(n + 1) :: n :: l, first.push (by omega) apart, fun slot inside => ?_⟩
  rcases List.mem_cons.mp inside with rfl | inside
  · exact Or.inl (second_mem_slots n)
  · exact (List.mem_cons.mp inside).imp_left fun (same : slot = n) => same ▸ List.mem_cons_self

end Nodet

end Ghdl.NodeTable
