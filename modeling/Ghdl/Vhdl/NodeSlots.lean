import Ghdl.Vhdl.NodeTable

/-!
# The slots of the nodes

What the calls keep of the table of nodes as long as the walk and the free chain are not disturbed: the live nodes are
walked and have the formats with which they were created, a slot of the medium format is followed by one of the short
format, and no slot of a live node is free.
-/

namespace Ghdl.NodeTable

open Linked

/-- What the calls keep when they meet their conditions. -/
structure Kept (s : State) : Prop where
  bound : 1 ≤ s.nodet.last
  paired : s.nodet.Paired
  /-- The live nodes have the formats with which they were created. -/
  formats : ∀ e ∈ s.live, (s.nodet.table e.1).format = e.2
  lower : ∀ e ∈ s.live, 2 ≤ e.1
  upper : ∀ e ∈ s.live, e.1 ≤ s.nodet.last
  /-- The live nodes are visited. -/
  starts : ∀ e ∈ s.live, s.nodet.Starts e.1
  aligned : ∀ n, (n, .medium) ∈ s.live → n % 2 = 0
  disjoint : s.slots.Nodup
  chain : ∃ l, s.nodet.Chain l ∧ ∀ slot ∈ l, slot ∉ s.slots

variable {s : State} {e : Nat × FormatType} {t : Nodet} {live : List (Nat × FormatType)} {fresh : Nat → NodeRecord}

theorem start_mem_slots (e : Nat × FormatType) : e.1 ∈ slots e := by
  obtain ⟨n, format⟩ := e
  cases format with
  | short | medium => exact List.mem_cons_self

theorem mem_slots_cases {slot : Nat} (inside : slot ∈ slots e) : slot = e.1 ∨ e.2 = .medium ∧ slot = e.1 + 1 := by
  obtain ⟨n, format⟩ := e
  cases format with
  | short => exact Or.inl (List.mem_singleton.mp inside)
  | medium =>
    rcases List.mem_cons.mp inside with same | inside
    · exact Or.inl same
    · exact Or.inr ⟨rfl, List.mem_singleton.mp inside⟩

theorem State.mem_slots {slot : Nat} (member : e ∈ s.live) (inside : slot ∈ NodeTable.slots e) : slot ∈ s.slots :=
  List.mem_flatMap.mpr ⟨e, member, inside⟩

namespace Kept

theorem inside (kept : Kept s) (member : e ∈ s.live) {slot : Nat} (inside : slot ∈ slots e) :
    2 ≤ slot ∧ slot ≤ s.nodet.last := by
  have lower := kept.lower e member
  have upper := kept.upper e member
  rcases mem_slots_cases inside with rfl | ⟨medium, rfl⟩
  · exact ⟨lower, upper⟩
  · have pair := kept.paired e.1 lower upper ((kept.formats e member).trans medium)
    omega

theorem slots_inside (kept : Kept s) {slot : Nat} (inside : slot ∈ s.slots) : 2 ≤ slot ∧ slot ≤ s.nodet.last := by
  obtain ⟨e, member, inside⟩ := List.mem_flatMap.mp inside
  exact kept.inside member inside

theorem sound (kept : Kept s) : Sound s := by
  obtain ⟨l, chain, outside⟩ := kept.chain
  exact {
    inside := fun e member slot inside => kept.inside member inside
    aligned := kept.aligned
    disjoint := kept.disjoint
    chain := ⟨l, chain, chain.nodup, outside⟩
    visited := fun e member => (Nodet.mem_nodes_iff kept.paired kept.bound).mpr
      ⟨kept.lower e member, kept.upper e member, kept.starts e member⟩ }

/-- The nodes stay in a table in which their slots keep their formats, and no format becomes medium. -/
theorem retable (kept : Kept s) (last : s.nodet.last ≤ t.last) (paired : t.Paired)
    (same : ∀ slot ∈ s.slots, (t.table slot).format = (s.nodet.table slot).format)
    (short : ∀ n, n ≤ s.nodet.last → (s.nodet.table n).format = .short → (t.table n).format = .short)
    (chain : ∃ l, t.Chain l ∧ ∀ slot ∈ l, slot ∉ s.slots) : Kept ⟨t, s.live⟩ where
  bound := Nat.le_trans kept.bound last
  paired := paired
  formats e member := (same e.1 (State.mem_slots member (start_mem_slots e))).trans (kept.formats e member)
  lower := kept.lower
  upper e member := Nat.le_trans (kept.upper e member) last
  starts e member := (kept.starts e member).imp_right (short (e.1 - 1) (by have := kept.upper e member; omega))
  aligned := kept.aligned
  disjoint := kept.disjoint
  chain := chain

/-- There are no nodes in the empty table. -/
theorem empty (last : t.last = 1) (chain : ∃ l, t.Chain l) : Kept ⟨t, []⟩ where
  bound := Nat.le_of_eq last.symm
  paired n lower upper := by
    have upper : n ≤ t.last := upper
    omega
  formats e member := absurd member List.not_mem_nil
  lower e member := absurd member List.not_mem_nil
  upper e member := absurd member List.not_mem_nil
  starts e member := absurd member List.not_mem_nil
  aligned n member := absurd member List.not_mem_nil
  disjoint := List.nodup_nil
  chain := chain.imp fun _ chain => ⟨chain, fun _ _ => List.not_mem_nil⟩

/-- One more node, in slots of no other node that are not free. -/
theorem add (kept : Kept ⟨t, live⟩) (format : (t.table e.1).format = e.2) (lower : 2 ≤ e.1) (upper : e.1 ≤ t.last)
    (starts : t.Starts e.1) (aligned : e.2 = .medium → e.1 % 2 = 0)
    (apart : ∀ slot ∈ slots e, slot ∉ live.flatMap slots) (taken : ∀ slot ∈ slots e, ¬ t.OnChain slot) :
    Kept ⟨t, e :: live⟩ where
  bound := kept.bound
  paired := kept.paired
  formats := List.forall_mem_cons.mpr ⟨format, kept.formats⟩
  lower := List.forall_mem_cons.mpr ⟨lower, kept.lower⟩
  upper := List.forall_mem_cons.mpr ⟨upper, kept.upper⟩
  starts := List.forall_mem_cons.mpr ⟨starts, kept.starts⟩
  aligned n member := by
    rcases List.mem_cons.mp member with rfl | member
    · exact aligned rfl
    · exact kept.aligned n member
  disjoint := by
    have own : (slots e).Nodup := by
      obtain ⟨n, own⟩ := e
      cases own with
      | short => exact List.nodup_singleton n
      | medium => simp [slots]
    show ((e :: live).flatMap slots).Nodup
    rw [List.flatMap_cons]
    exact own.append kept.disjoint apart
  chain := by
    obtain ⟨l, chain, outside⟩ := kept.chain
    refine ⟨l, chain, fun slot inside member => ?_⟩
    have member : slot ∈ (e :: live).flatMap slots := member
    rw [List.flatMap_cons] at member
    rcases List.mem_append.mp member with own | other
    · exact taken slot own ((Nodet.onChain_iff chain).mpr inside)
    · exact outside slot inside other

theorem freeNode (kept : Kept s) (member : e ∈ s.live) : Kept ⟨s.nodet.freeNode e.1, s.live.erase e⟩ := by
  have lower := kept.lower e member
  have perm : s.slots.Perm (slots e ++ (s.live.erase e).flatMap slots) := by
    rw [← List.flatMap_cons]
    exact (List.perm_cons_erase member).flatMap_right slots
  have nodup := List.nodup_append'.mp (perm.nodup_iff.mp kept.disjoint)
  have fewer : ∀ d ∈ s.live.erase e, d ∈ s.live := fun d inside => List.mem_of_mem_erase inside
  obtain ⟨l, chain, outside⟩ := kept.chain
  have isFormat : (e.1, (s.nodet.table e.1).format) = e := Prod.ext rfl (kept.formats e member)
  obtain ⟨l', chain', inside⟩ := chain.freeNode lower (by
    rw [isFormat]
    intro slot inSlots inChain
    exact outside slot inChain (State.mem_slots member inSlots))
  rw [isFormat] at inside
  have format := Nodet.freeNode_format (t := s.nodet) lower
  have last := Nodet.freeNode_last (t := s.nodet) lower
  exact {
    bound := by
      show 1 ≤ (s.nodet.freeNode e.1).last
      rw [last]
      exact kept.bound
    paired := by
      intro n lower upper medium
      have upper : n ≤ (s.nodet.freeNode e.1).last := upper
      rw [last] at upper
      rw [format] at medium
      show n < (s.nodet.freeNode e.1).last ∧ ((s.nodet.freeNode e.1).table (n + 1)).format = .short
      rw [last, format]
      exact kept.paired n lower upper medium
    formats := fun d inside => (format d.1).trans (kept.formats d (fewer d inside))
    lower := fun d inside => kept.lower d (fewer d inside)
    upper := fun d inside => by
      show d.1 ≤ (s.nodet.freeNode e.1).last
      rw [last]
      exact kept.upper d (fewer d inside)
    starts := fun d inside => (kept.starts d (fewer d inside)).imp_right (format (d.1 - 1)).trans
    aligned := fun n inside => kept.aligned n (fewer _ inside)
    disjoint := nodup.2.1
    chain := by
      refine ⟨l', chain', fun slot inChain inRest => ?_⟩
      have inRest : slot ∈ (s.live.erase e).flatMap slots := inRest
      rcases inside slot inChain with own | free
      · exact nodup.2.2 own inRest
      · exact outside slot free (perm.mem_iff.mpr (List.mem_append_right _ inRest)) }

end Kept

namespace Nodet

variable {n m : Nat}

theorem createNode_empty (fresh : Nat → NodeRecord) (empty : t.freeChain = 0) : t.createNode fresh .short =
    (t.last + 1, { t with table := Function.update t.table (t.last + 1) initNode, last := t.last + 1 }) := by
  unfold createNode
  rw [if_pos empty]
  unfold incrementLast setRecord
  dsimp only
  rw [Function.update_idem]

theorem createNode_head (fresh : Nat → NodeRecord) (nonempty : t.freeChain ≠ 0) : t.createNode fresh .short =
    (t.freeChain, { t with
      table := Function.update t.table t.freeChain initNode
      freeChain := t.getField1 t.freeChain }) := by
  unfold createNode
  rw [if_neg nonempty]
  rfl

/-- The table after the slot that is left for the alignment. -/
def padded (t : Nodet) (fresh : Nat → NodeRecord) : Nodet :=
  if t.last % 2 = 0 then (t.incrementLast fresh).pushFree (t.last + 1) else t

/-- The table with a medium node after its last slot. -/
def pair (t : Nodet) : Nodet :=
  { t with
    table := Function.update (Function.update t.table (t.last + 1) { initNode with format := .medium }) (t.last + 2) initNode
    last := t.last + 2 }

/-- The last slot after a medium node is created. -/
def newLast (t : Nodet) : Nat := t.last + 3 - t.last % 2

theorem allocate_pair (t : Nodet) (fresh : Nat → NodeRecord) :
    (((t.incrementLast fresh).incrementLast fresh).setRecord (t.last + 1) { initNode with format := .medium }).setRecord
      (t.last + 1 + 1) initNode = t.pair := by
  unfold incrementLast setRecord pair
  dsimp only
  congr 1
  funext n
  by_cases second : n = t.last + 1 + 1
  · rw [second, Function.update_self, Function.update_self]
  rw [Function.update_of_ne second, Function.update_of_ne second]
  by_cases first : n = t.last + 1
  · rw [first, Function.update_self, Function.update_self]
  · rw [Function.update_of_ne first, Function.update_of_ne second, Function.update_of_ne first,
      Function.update_of_ne first]

theorem createNode_medium (t : Nodet) (fresh : Nat → NodeRecord) :
    t.createNode fresh .medium = ((t.padded fresh).last + 1, (t.padded fresh).pair) := by
  unfold createNode padded
  by_cases even : t.last % 2 = 0
  · have odd : (t.incrementLast fresh).last % 2 = 1 := by
      show (t.last + 1) % 2 = 1
      omega
    rw [if_pos even]
    dsimp only
    rw [if_pos odd]
    exact Prod.ext rfl (allocate_pair _ fresh)
  have odd : ¬ (t.incrementLast fresh).last % 2 = 1 := by
    show ¬ (t.last + 1) % 2 = 1
    omega
  rw [if_neg even]
  dsimp only
  rw [if_neg odd]
  exact Prod.ext rfl (allocate_pair t fresh)

theorem padded_last (t : Nodet) (fresh : Nat → NodeRecord) : (t.padded fresh).last = t.last + 1 - t.last % 2 := by
  unfold padded
  split
  · next even =>
    rw [even]
    rfl
  · omega

theorem incrementLast_table_other (different : n ≠ t.last + 1) : (t.incrementLast fresh).table n = t.table n :=
  Function.update_of_ne different _ _

theorem padded_table_other (t : Nodet) (fresh : Nat → NodeRecord) (different : n ≠ t.last + 1) :
    (t.padded fresh).table n = t.table n := by
  unfold padded
  split
  · rw [pushFree_table_other different, incrementLast_table_other different]
  · rfl

theorem pair_table_other (first : n ≠ t.last + 1) (second : n ≠ t.last + 2) : t.pair.table n = t.table n := by
  unfold pair
  dsimp only
  rw [Function.update_of_ne second, Function.update_of_ne first]

@[simp] theorem pair_first (t : Nodet) : t.pair.table (t.last + 1) = { initNode with format := .medium } := by
  unfold pair
  dsimp only
  rw [Function.update_of_ne (by omega), Function.update_self]

@[simp] theorem pair_second (t : Nodet) : t.pair.table (t.last + 2) = initNode := Function.update_self _ _ _

theorem padded_table_first (even : t.last % 2 = 0) (fresh : Nat → NodeRecord) :
    (t.padded fresh).table (t.last + 1) = { fresh (t.last + 1) with field1 := t.freeChain } := by
  unfold padded
  rw [if_pos even, pushFree_table, Function.update_self]
  show { Function.update t.table (t.last + 1) (fresh (t.last + 1)) (t.last + 1) with field1 := t.freeChain } = _
  rw [Function.update_self]

theorem padded_freeChain (even : t.last % 2 = 0) (fresh : Nat → NodeRecord) :
    (t.padded fresh).freeChain = t.last + 1 := by
  unfold padded
  rw [if_pos even]
  rfl

theorem Chain.padded (chain : t.Chain l) (fresh : Nat → NodeRecord) (even : t.last % 2 = 0) (bound : 1 ≤ t.last)
    (apart : t.last + 1 ∉ l) : (t.padded fresh).Chain ((t.last + 1) :: l) := by
  have same : (t.incrementLast fresh).Chain l := chain.congr rfl fun slot inside => by
    rw [incrementLast_table_other (ne_of_mem_of_not_mem inside apart)]
  unfold Nodet.padded
  rw [if_pos even]
  exact same.push (Nat.succ_le_succ bound) apart

theorem padded_of_odd (odd : t.last % 2 = 1) (fresh : Nat → NodeRecord) : t.padded fresh = t :=
  if_neg (by omega)

theorem Paired.last_short (paired : t.Paired) (lower : 2 ≤ t.last) : (t.table t.last).format = .short :=
  (t.format_cases t.last).resolve_right fun medium => absurd (paired t.last lower (Nat.le_refl _) medium).1 (Nat.lt_irrefl _)

theorem Paired.starts_next (paired : t.Paired) (bound : 1 ≤ t.last) : t.Starts (t.last + 1) := by
  by_cases first : t.last + 1 = 2
  · exact Or.inl first
  · exact Or.inr (paired.last_short (by omega))

end Nodet

namespace Kept

theorem createEmpty (kept : Kept s) (empty : s.nodet.freeChain = 0) :
    Kept ⟨(s.nodet.createNode fresh .short).2, ((s.nodet.createNode fresh .short).1, .short) :: s.live⟩ := by
  rw [Nodet.createNode_empty fresh empty]
  have other : ∀ n, n ≠ s.nodet.last + 1 → Function.update s.nodet.table (s.nodet.last + 1) initNode n = s.nodet.table n :=
    fun n different => Function.update_of_ne different _ _
  have nodet : Kept ⟨{ s.nodet with
      table := Function.update s.nodet.table (s.nodet.last + 1) initNode
      last := s.nodet.last + 1 }, s.live⟩ := by
    apply kept.retable
    · exact Nat.le_succ _
    · intro n lower upper medium
      dsimp only at upper medium ⊢
      by_cases new : n = s.nodet.last + 1
      · rw [new, Function.update_self] at medium
        cases medium
      · rw [other n new] at medium
        have pair := kept.paired n lower (by omega) medium
        rw [other (n + 1) (by omega)]
        exact ⟨by omega, pair.2⟩
    · intro slot inside
      have upper := (kept.slots_inside inside).2
      exact congrArg NodeRecord.format (other slot (by omega))
    · intro n upper short
      dsimp only
      rw [other n (by omega)]
      exact short
    · obtain ⟨l, free, outside⟩ := kept.chain
      refine ⟨l, free.congr rfl fun slot inside => ?_, outside⟩
      rw [free.eq_nil empty] at inside
      exact absurd inside List.not_mem_nil
  apply nodet.add
  · dsimp only
    rw [Function.update_self]
    rfl
  · exact Nat.succ_le_succ kept.bound
  · exact Nat.le_refl _
  · refine (kept.paired.starts_next kept.bound).imp_right fun short => ?_
    dsimp only
    rw [other _ (by omega)]
    exact short
  · intro medium
    cases medium
  · intro slot own inside
    have upper := (kept.slots_inside inside).2
    rw [List.mem_singleton.mp own] at upper
    omega
  · intro slot _
    exact Nodet.not_onChain_of_empty empty

theorem paired_head (kept : Kept s) : Nodet.Paired { s.nodet with
    table := Function.update s.nodet.table s.nodet.freeChain initNode
    freeChain := s.nodet.getField1 s.nodet.freeChain } := by
  intro n lower upper medium
  dsimp only at upper medium ⊢
  by_cases own : n = s.nodet.freeChain
  · rw [own, Function.update_self] at medium
    cases medium
  rw [Function.update_of_ne own] at medium
  have pair := kept.paired n lower upper medium
  refine ⟨pair.1, ?_⟩
  by_cases next : n + 1 = s.nodet.freeChain
  · rw [next, Function.update_self]
    rfl
  · rw [Function.update_of_ne next]
    exact pair.2

/-- The first slot of the free chain, and the slots after it. -/
theorem head (kept : Kept s) (nonempty : s.nodet.freeChain ≠ 0) : ∃ l, 2 ≤ s.nodet.freeChain ∧
    s.nodet.freeChain ∉ s.slots ∧ s.nodet.freeChain ∉ l ∧ (∀ slot ∈ l, slot ∉ s.slots) ∧
    Segment s.nodet.links (Nodet.link (s.nodet.getField1 s.nodet.freeChain)) l none := by
  obtain ⟨l, chain, outside⟩ := kept.chain
  have start : Nodet.link s.nodet.freeChain = some s.nodet.freeChain := Nodet.link_of_pos (Nat.pos_of_ne_zero nonempty)
  have nodup := chain.nodup
  have lower := chain.lower
  cases l with
  | nil =>
    have isNone : Nodet.link s.nodet.freeChain = none := chain
    rw [isNone] at start
    cases start
  | cons slot l =>
    obtain ⟨isSlot, r, linked, rest⟩ := chain
    rw [start] at isSlot
    obtain rfl := Option.some.inj isSlot
    have atLeast := lower _ List.mem_cons_self
    refine ⟨l, atLeast, outside _ List.mem_cons_self, (List.nodup_cons.mp nodup).1,
      fun slot inside => outside slot (List.mem_cons_of_mem _ inside), ?_⟩
    unfold Nodet.links at linked
    rw [if_neg (by omega)] at linked
    rw [Option.some.inj linked]
    exact rest

theorem createHead (kept : Kept s) (nonempty : s.nodet.freeChain ≠ 0) (upper : s.nodet.freeChain ≤ s.nodet.last)
    (starts : s.nodet.Starts s.nodet.freeChain) :
    Kept ⟨(s.nodet.createNode fresh .short).2, ((s.nodet.createNode fresh .short).1, .short) :: s.live⟩ := by
  rw [Nodet.createNode_head fresh nonempty]
  obtain ⟨l, lower, notLive, notAgain, outside, rest⟩ := kept.head nonempty
  have chain : Nodet.Chain { s.nodet with
      table := Function.update s.nodet.table s.nodet.freeChain initNode
      freeChain := s.nodet.getField1 s.nodet.freeChain } l := by
    refine (Segment.congr fun slot inside => Nodet.links_congr ?_).mpr rest
    dsimp only
    rw [Function.update_of_ne (ne_of_mem_of_not_mem inside notAgain)]
  have nodet : Kept ⟨{ s.nodet with
      table := Function.update s.nodet.table s.nodet.freeChain initNode
      freeChain := s.nodet.getField1 s.nodet.freeChain }, s.live⟩ := by
    apply kept.retable
    · exact Nat.le_refl _
    · exact kept.paired_head
    · intro slot inside
      dsimp only
      rw [Function.update_of_ne (ne_of_mem_of_not_mem inside notLive)]
    · intro n _ short
      dsimp only
      by_cases own : n = s.nodet.freeChain
      · rw [own, Function.update_self]
        rfl
      · rw [Function.update_of_ne own]
        exact short
    · exact ⟨l, chain, outside⟩
  apply nodet.add
  · dsimp only
    rw [Function.update_self]
    rfl
  · exact lower
  · exact upper
  · refine starts.imp_right fun short => ?_
    dsimp only
    rw [Function.update_of_ne (by omega)]
    exact short
  · intro medium
    cases medium
  · intro slot own
    rw [List.mem_singleton.mp own]
    exact notLive
  · intro slot own onChain
    rw [List.mem_singleton.mp own] at onChain
    exact notAgain ((Nodet.onChain_iff chain).mp onChain)

/-- The slot for the alignment becomes free. -/
theorem padded (kept : Kept s) (short : s.nodet.last % 2 = 0 → (fresh (s.nodet.last + 1)).format = .short)
    (notFree : ¬ s.nodet.OnChain (s.nodet.last + 1)) : Kept ⟨s.nodet.padded fresh, s.live⟩ := by
  by_cases even : s.nodet.last % 2 = 0
  · have other := fun n (upper : n ≤ s.nodet.last) =>
      Nodet.padded_table_other s.nodet fresh (n := n) (by omega)
    have first : ((s.nodet.padded fresh).table (s.nodet.last + 1)).format = .short := by
      rw [Nodet.padded_table_first even]
      exact short even
    have last : (s.nodet.padded fresh).last = s.nodet.last + 1 := by
      rw [Nodet.padded_last]
      omega
    apply kept.retable
    · omega
    · intro n lower upper medium
      rw [last] at upper ⊢
      by_cases new : n = s.nodet.last + 1
      · rw [new, first] at medium
        cases medium
      · rw [other n (by omega)] at medium
        have pair := kept.paired n lower (by omega) medium
        rw [other (n + 1) (by omega)]
        exact ⟨by omega, pair.2⟩
    · intro slot inside
      rw [other slot (kept.slots_inside inside).2]
    · intro n upper isShort
      rw [other n upper]
      exact isShort
    · obtain ⟨l, chain, outside⟩ := kept.chain
      have apart : s.nodet.last + 1 ∉ l := fun inside => notFree ((Nodet.onChain_iff chain).mpr inside)
      refine ⟨(s.nodet.last + 1) :: l, chain.padded fresh even kept.bound apart, ?_⟩
      refine List.forall_mem_cons.mpr ⟨fun inside => ?_, outside⟩
      have upper := (kept.slots_inside inside).2
      omega
  · rw [Nodet.padded_of_odd (by omega)]
    exact kept

/-- A medium node at the end of the table. -/
theorem pair (kept : Kept ⟨t, live⟩) (odd : t.last % 2 = 1) (first : ¬ t.OnChain (t.last + 1))
    (second : ¬ t.OnChain (t.last + 2)) : Kept ⟨t.pair, (t.last + 1, .medium) :: live⟩ := by
  have bound : 1 ≤ t.last := kept.bound
  have other := fun n (upper : n ≤ t.last) =>
    Nodet.pair_table_other (t := t) (n := n) (by omega) (by omega)
  obtain ⟨l, chain, outside⟩ := kept.chain
  have chain : t.Chain l := chain
  have notFirst : t.last + 1 ∉ l := fun inside => first ((Nodet.onChain_iff chain).mpr inside)
  have notSecond : t.last + 2 ∉ l := fun inside => second ((Nodet.onChain_iff chain).mpr inside)
  have chain' : t.pair.Chain l := chain.congr rfl fun slot inside => by
    rw [Nodet.pair_table_other (ne_of_mem_of_not_mem inside notFirst) (ne_of_mem_of_not_mem inside notSecond)]
  have nodet : Kept ⟨t.pair, live⟩ := by
    apply kept.retable
    · exact Nat.le_add_right t.last 2
    · intro n lower upper medium
      have upper : n ≤ t.last + 2 := upper
      show n < t.last + 2 ∧ _
      by_cases isFirst : n = t.last + 1
      · rw [isFirst]
        exact ⟨by omega, congrArg NodeRecord.format t.pair_second⟩
      by_cases isSecond : n = t.last + 2
      · rw [isSecond, Nodet.pair_second] at medium
        cases medium
      rw [other n (by omega)] at medium
      have pair := kept.paired n lower (show n ≤ t.last by omega) medium
      have before : n < t.last := pair.1
      rw [other (n + 1) (by omega)]
      exact ⟨by omega, pair.2⟩
    · intro slot inside
      rw [other slot (kept.slots_inside inside).2]
    · intro n upper short
      rw [other n upper]
      exact short
    · exact ⟨l, chain', outside⟩
  apply nodet.add
  · dsimp only
    rw [Nodet.pair_first]
  · exact Nat.succ_le_succ bound
  · exact Nat.le_succ _
  · refine (kept.paired.starts_next bound).imp_right fun short => ?_
    rw [show t.last + 1 - 1 = t.last by omega] at short
    dsimp only
    rw [show t.last + 1 - 1 = t.last by omega, other t.last (Nat.le_refl _)]
    exact short
  · intro _
    dsimp only
    omega
  · intro slot own inside
    have upper : slot ≤ t.last := (kept.slots_inside (s := ⟨t, live⟩) inside).2
    rcases mem_slots_cases own with rfl | ⟨_, rfl⟩
    · omega
    · omega
  · intro slot own onChain
    have inside := (Nodet.onChain_iff chain').mp onChain
    rcases mem_slots_cases own with rfl | ⟨_, rfl⟩
    · exact notFirst inside
    · exact notSecond inside

theorem padded_onChain (kept : Kept s) (notFree : ¬ s.nodet.OnChain (s.nodet.last + 1)) {slot : Nat}
    (different : slot ≠ s.nodet.last + 1 ∨ s.nodet.last % 2 = 1) (onChain : (s.nodet.padded fresh).OnChain slot) :
    s.nodet.OnChain slot := by
  by_cases even : s.nodet.last % 2 = 0
  · obtain ⟨l, chain, -⟩ := kept.chain
    have apart : s.nodet.last + 1 ∉ l := fun inside => notFree ((Nodet.onChain_iff chain).mpr inside)
    have inside := (Nodet.onChain_iff (chain.padded fresh even kept.bound apart)).mp onChain
    rcases List.mem_cons.mp inside with same | inside
    · omega
    · exact (Nodet.onChain_iff chain).mpr inside
  · rw [Nodet.padded_of_odd (by omega)] at onChain
    exact onChain

theorem createMedium (kept : Kept s)
    (notFree : ∀ slot, s.nodet.last < slot → slot ≤ s.nodet.newLast → ¬ s.nodet.OnChain slot)
    (short : s.nodet.last % 2 = 0 → (fresh (s.nodet.last + 1)).format = .short) :
    Kept ⟨(s.nodet.createNode fresh .medium).2, ((s.nodet.createNode fresh .medium).1, .medium) :: s.live⟩ := by
  rw [Nodet.createNode_medium]
  unfold Nodet.newLast at notFree
  have first := notFree (s.nodet.last + 1) (by omega) (by omega)
  have last := s.nodet.padded_last fresh
  apply (kept.padded short first).pair
  · omega
  all_goals
    intro onChain
    exact notFree _ (by omega) (by omega) (kept.padded_onChain first (by omega) onChain)

end Kept

end Ghdl.NodeTable
