import Ghdl.System.Traces
import Ghdl.Vhdl.NodeSlots

/-!
# Runs of calls on the nodes

After every call, the live nodes have their own slots and are walked, exactly when every call meets a condition on the
free chain and on what the slots hold.
-/

namespace Ghdl.NodeTable

open Linked Transition

variable {s : State} {e : Nat × FormatType} {t : Nodet} {live : List (Nat × FormatType)} {fresh : Nat → NodeRecord}

/-- The condition of a call. The new slots of a medium node are not on the free chain, and the one that is left for
the alignment does not hold the medium format. The free slot of a short node is in the table and not behind the first
slot of a freed medium node. The free chain that stays ends in the new table. -/
def Meets (s : State) : Operation → Prop
  | .createNode .medium fresh =>
    (∀ slot, s.nodet.last < slot → slot ≤ s.nodet.newLast → ¬ s.nodet.OnChain slot) ∧
      (s.nodet.last % 2 = 0 → (fresh (s.nodet.last + 1)).format = .short)
  | .createNode .short _ =>
    s.nodet.freeChain = 0 ∨ s.nodet.freeChain ≤ s.nodet.last ∧ s.nodet.Starts s.nodet.freeChain
  | .freeNode _ => True
  | .initializeNodes fresh => ∃ l, (s.nodet.initializeNodes fresh).Chain l

theorem Sound.newStart (sound : Sound ⟨t, e :: live⟩) : e.1 ∈ t.nodes := sound.visited e List.mem_cons_self

theorem Sound.notFree (sound : Sound ⟨t, e :: live⟩) {slot : Nat} (own : slot ∈ slots e) : ¬ t.OnChain slot := by
  intro onChain
  obtain ⟨l, chain, -, outside⟩ := sound.chain
  exact outside slot ((Nodet.onChain_iff chain).mp onChain) (State.mem_slots List.mem_cons_self own)

theorem Kept.lost_head (kept : Kept s) (nonempty : s.nodet.freeChain ≠ 0)
    (notWalked : ¬ (s.nodet.freeChain ≤ s.nodet.last ∧ s.nodet.Starts s.nodet.freeChain)) :
    ¬ Sound ⟨(s.nodet.createNode fresh .short).2, ((s.nodet.createNode fresh .short).1, .short) :: s.live⟩ := by
  rw [Nodet.createNode_head fresh nonempty]
  intro sound
  obtain ⟨lower, upper, starts⟩ := (Nodet.mem_nodes_iff kept.paired_head kept.bound).mp sound.newStart
  refine notWalked ⟨upper, starts.imp_right fun short => ?_⟩
  dsimp only at short lower
  rw [Function.update_of_ne (by omega)] at short
  exact short

namespace Nodet

variable {n : Nat}

theorem newLast_eq (t : Nodet) (fresh : Nat → NodeRecord) : t.newLast = (t.padded fresh).last + 2 := by
  rw [padded_last]
  unfold newLast
  omega

theorem createNode_table_other (t : Nodet) (fresh : Nat → NodeRecord) (old : n ≤ t.last ∨ t.newLast < n) :
    (t.padded fresh).pair.table n = t.table n := by
  have last := t.padded_last fresh
  have newLast := t.newLast_eq fresh
  rw [pair_table_other (by omega) (by omega), padded_table_other t fresh (by omega)]

theorem createNode_table_first (even : t.last % 2 = 0) (fresh : Nat → NodeRecord) :
    (t.padded fresh).pair.table (t.last + 1) = { fresh (t.last + 1) with field1 := t.freeChain } := by
  have last := t.padded_last fresh
  rw [pair_table_other (by omega) (by omega), padded_table_first even]

theorem Chain.first_new (chain : t.Chain l) (inside : n ∈ l) (new : t.last < n ∧ n ≤ t.newLast) :
    ∃ front x, (t.last < x ∧ x ≤ t.newLast) ∧ (∀ slot ∈ front, slot ≤ t.last ∨ t.newLast < slot) ∧
      Segment t.links (link t.freeChain) front (some x) := by
  have found : (l.find? fun x => decide (t.last < x ∧ x ≤ t.newLast)).isSome :=
    List.find?_isSome.mpr ⟨n, inside, decide_eq_true new⟩
  obtain ⟨x, isFirst⟩ := Option.isSome_iff_exists.mp found
  obtain ⟨isNew, front, back, rfl, old⟩ := List.find?_eq_some_iff_append.mp isFirst
  obtain ⟨r, before, after⟩ := Segment.append_iff.mp chain
  refine ⟨front, x, of_decide_eq_true isNew, fun slot inside => ?_, after.1 ▸ before⟩
  have notNew := old slot inside
  have notNew := of_decide_eq_false (Bool.not_eq_true' _ ▸ notNew)
  omega

end Nodet

theorem Kept.lost_chain (kept : Kept s) {slot : Nat} (new : s.nodet.last < slot ∧ slot ≤ s.nodet.newLast)
    (onChain : s.nodet.OnChain slot) :
    ¬ Sound ⟨(s.nodet.createNode fresh .medium).2, ((s.nodet.createNode fresh .medium).1, .medium) :: s.live⟩ := by
  rw [Nodet.createNode_medium]
  intro sound
  obtain ⟨l, chain, -⟩ := kept.chain
  obtain ⟨front, x, isNew, old, reached⟩ := chain.first_new ((Nodet.onChain_iff chain).mp onChain) new
  have last := s.nodet.padded_last fresh
  have newLast := s.nodet.newLast_eq fresh
  have reached' : Segment (s.nodet.padded fresh).pair.links (Nodet.link s.nodet.freeChain) front (some x) :=
    (Segment.congr fun slot inside => Nodet.links_congr
      (by rw [Nodet.createNode_table_other s.nodet fresh (old slot inside)])).mpr reached
  have own : ∀ y, y = (s.nodet.padded fresh).last + 1 ∨ y = (s.nodet.padded fresh).last + 2 →
      ¬ (s.nodet.padded fresh).pair.OnChain y := by
    rintro y (rfl | rfl)
    · exact sound.notFree List.mem_cons_self
    · exact sound.notFree (Nodet.second_mem_slots _)
  by_cases even : s.nodet.last % 2 = 0
  · -- The chain starts with the slot for the alignment, and is the old one up to the new slot.
    have whole : Segment (s.nodet.padded fresh).pair.links (Nodet.link (s.nodet.padded fresh).pair.freeChain)
        ((s.nodet.last + 1) :: front) (some x) := by
      have head : (s.nodet.padded fresh).pair.freeChain = s.nodet.last + 1 := Nodet.padded_freeChain even fresh
      rw [head]
      refine ⟨Nodet.link_of_pos (Nat.succ_pos _), _, ?_, reached'⟩
      have bound := kept.bound
      unfold Nodet.links Nodet.getField1
      rw [if_neg (by omega), Nodet.createNode_table_first even]
    by_cases isPad : x = s.nodet.last + 1
    · obtain ⟨l', chain', nodup, -⟩ := sound.chain
      obtain ⟨back, isAll⟩ := Segment.initial whole chain'
      rw [isAll, isPad] at nodup
      exact (List.nodup_cons.mp nodup).1 (List.mem_append_right front List.mem_cons_self)
    · exact own x (by omega) ⟨_, whole⟩
  · have head : (s.nodet.padded fresh).pair.freeChain = s.nodet.freeChain := by
      rw [Nodet.padded_of_odd (by omega)]
      rfl
    refine own x (by omega) ⟨front, ?_⟩
    rw [head]
    exact reached'

theorem Kept.lost_padding (kept : Kept s) (even : s.nodet.last % 2 = 0)
    (medium : (fresh (s.nodet.last + 1)).format = .medium) :
    ¬ Sound ⟨(s.nodet.createNode fresh .medium).2, ((s.nodet.createNode fresh .medium).1, .medium) :: s.live⟩ := by
  rw [Nodet.createNode_medium]
  intro sound
  have bound := kept.bound
  have last := s.nodet.padded_last fresh
  have first : ((s.nodet.padded fresh).pair.table (s.nodet.last + 1)).format = .medium := by
    rw [Nodet.createNode_table_first even]
    exact medium
  have jumps : ∀ n, (s.nodet.padded fresh).pair.Visited n → n ≤ s.nodet.last + 1 ∨ s.nodet.last + 3 ≤ n := by
    intro n visited
    induction visited with
    | first => omega
    | @next m visited inside ih =>
      have further := (s.nodet.padded fresh).pair.lt_nextNode m
      have same := fun old : m ≤ s.nodet.last =>
        congrArg NodeRecord.format (s.nodet.createNode_table_other fresh (Or.inl old))
      rcases (s.nodet.padded fresh).pair.format_cases m with isShort | isMedium
      · rw [Nodet.nextNode_short isShort]
        by_cases pad : m = s.nodet.last + 1
        · rw [pad, first] at isShort
          cases isShort
        · omega
      · rw [Nodet.nextNode_medium isMedium]
        by_cases old : m ≤ s.nodet.last ∧ 2 ≤ m
        · rw [same old.1] at isMedium
          have pair := kept.paired m old.2 old.1 isMedium
          omega
        · omega
  have visited := (Nodet.mem_nodes.mp sound.newStart).1
  have either := jumps _ visited
  omega

theorem execute_createNode (s : State) (format : FormatType) (fresh : Nat → NodeRecord) :
    execute s (.createNode format fresh) =
      .ok ⟨(s.nodet.createNode fresh format).2, ((s.nodet.createNode fresh format).1, format) :: s.live⟩ := rfl

theorem Kept.execute {op : Operation} {s' : State} (kept : Kept s) (meets : Meets s op)
    (step : execute s op = .ok s') : Kept s' := by
  cases op with
  | createNode format fresh =>
    rw [execute_createNode] at step
    rw [← Except.ok.inj step]
    cases format with
    | medium => exact kept.createMedium meets.1 meets.2
    | short =>
      by_cases empty : s.nodet.freeChain = 0
      · exact kept.createEmpty empty
      · have walked := meets.resolve_left empty
        exact kept.createHead empty walked.1 walked.2
  | freeNode n =>
    unfold NodeTable.execute at step
    dsimp only at step
    split at step
    · cases step
    · next e found =>
      rw [← Except.ok.inj step]
      have isNode : e.1 = n := by simpa using List.find?_some found
      rw [← isNode]
      exact kept.freeNode (List.mem_of_find?_eq_some found)
  | initializeNodes fresh =>
    rw [← Except.ok.inj step]
    exact Kept.empty rfl meets

theorem Kept.lost {op : Operation} (kept : Kept s) (notMeets : ¬ Meets s op) :
    ∃ s', NodeTable.execute s op = .ok s' ∧ ¬ Sound s' := by
  cases op with
  | createNode format fresh =>
    refine ⟨_, execute_createNode s format fresh, ?_⟩
    cases format with
    | medium =>
      by_cases short : s.nodet.last % 2 = 0 → (fresh (s.nodet.last + 1)).format = .short
      · have someFree : ∃ slot, (s.nodet.last < slot ∧ slot ≤ s.nodet.newLast) ∧ s.nodet.OnChain slot := by
          apply Classical.byContradiction
          intro none
          exact notMeets ⟨fun slot lower upper onChain => none ⟨slot, ⟨lower, upper⟩, onChain⟩, short⟩
        obtain ⟨slot, new, onChain⟩ := someFree
        exact kept.lost_chain new onChain
      · obtain ⟨even, notShort⟩ := Classical.not_imp.mp short
        exact kept.lost_padding even (FormatType.medium_of_ne notShort)
    | short =>
      obtain ⟨nonempty, notWalked⟩ := not_or.mp notMeets
      exact kept.lost_head nonempty notWalked
  | freeNode n => exact absurd trivial notMeets
  | initializeNodes fresh =>
    refine ⟨_, rfl, fun sound => ?_⟩
    obtain ⟨l, chain, -⟩ := sound.chain
    exact notMeets ⟨l, chain⟩

theorem Kept.start (table : Nat → NodeRecord) : Kept (start table) := Kept.empty rfl ⟨[], rfl⟩

/-- The live nodes have their own slots and are walked, after every call, exactly when every call meets its condition. -/
theorem sound_iff (table : Nat → NodeRecord) (ops : List Operation) :
    Always execute Sound (start table) ops ↔ EveryStep execute Meets (start table) ops :=
  always_iff_everyStep (fun _ kept => kept.sound) (fun _ _ _ kept meets step => kept.execute meets step)
    (fun _ _ kept notMeets => kept.lost notMeets) (Kept.start table)

/-- A medium node is freed, and its second slot becomes a short node, which is not walked. -/
theorem reused_slot_not_walked : ¬ ∀ table ops, Always execute Sound (start table) ops := by
  intro always
  have run := always (fun _ => initNode) [.createNode .medium fun _ => initNode, .freeNode 2, .createNode .short fun _ => initNode]
  have sound := run.last rfl
  have walked := sound.visited (3, .short) List.mem_cons_self
  exact absurd walked (by decide)

end Ghdl.NodeTable
