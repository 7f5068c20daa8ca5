import Ghdl.Ghw.Avls
import Ghdl.Trees.Search

/-!
# Runs of insertions in a balanced tree

The callers append a node to the array and have it inserted; when an equal value was there, they may drop the node.
Whatever has been inserted in this way, the array holds a balanced search tree of the values inserted, a further
insertion passes the check, and a search finds a node exactly for the values that have been inserted.
-/

namespace Ghdl.Avls

open Trees Fallible

/-- The loop of `Find_Node`. -/
def findNodeLoop (cmp : AvlValue → AvlValue → Int) (tree : AvlTree) (val : AvlValue) : Nat → AvlNid → Except AvlError AvlNid
  | 0, _ => .error .depth
  | fuel + 1, n =>
    let diff := cmp val (tree n).val
    if diff = 0 then .ok n
    else
      let n := if diff < 0 then (tree n).left else (tree n).right
      if n = avlNil then .ok avlNil else findNodeLoop cmp tree val fuel n

/-- `Find_Node`, for the array of the nodes 1 to LAST. -/
def findNode (cmp : AvlValue → AvlValue → Int) (tree : AvlTree) (last : AvlNid) (val : AvlValue) : Except AvlError AvlNid :=
  if last < avlRoot then .ok avlNil else findNodeLoop cmp tree val last avlRoot

/-- The array with a new node for the value. -/
def append (tree : AvlTree) (n : AvlNid) (val : AvlValue) : AvlTree := tree.set n fun _ => ⟨val, avlNil, avlNil, 1⟩

/-- The nodes 1 to LAST of the array, after the insertion of these values. -/
inductive Inserted (cmp : AvlValue → AvlValue → Int) : AvlTree → AvlNid → List AvlValue → Prop
  | empty (tree : AvlTree) : Inserted cmp tree 0 []
  /-- The new node is kept, or dropped when it is not the result. -/
  | insert {tree tree' : AvlTree} {last last' res : AvlNid} {values : List AvlValue} (val : AvlValue)
      (inserted : Inserted cmp tree last values)
      (result : getNode cmp (append tree (last + 1) val) (last + 1) (last + 1) = .ok (tree', res))
      (kept : last' = last + 1 ∨ last' = last ∧ res ≠ last + 1) : Inserted cmp tree' last' (val :: values)

variable {κ : Type*} [LinearOrder κ] {cmp : AvlValue → AvlValue → Int} {key : AvlValue → κ} {tree tree' : AvlTree}
  {t t' : NamedTree AvlNid AvlValue} {last n res : AvlNid} {val : AvlValue} {values : List AvlValue}

/-- The nodes 1 to LAST of the array hold a balanced search tree; the heights of its nodes are exact. -/
structure Searches (key : AvlValue → κ) (tree : AvlTree) (last : AvlNid) (t : NamedTree AvlNid AvlValue) : Prop where
  root : if last = 0 then t = .nil else t ≠ .nil ∧ Holds tree avlRoot t
  distinct : t.ids.Nodup
  bound : ∀ n ∈ t.ids, n ≤ last
  balanced : t.Balanced
  ordered : NamedTree.Ordered key t.vals

theorem append_self (tree : AvlTree) (n : AvlNid) (val : AvlValue) : append tree n val n = ⟨val, avlNil, avlNil, 1⟩ :=
  set_self tree n _

theorem append_of_ne (tree : AvlTree) (val : AvlValue) {n k : AvlNid} (different : k ≠ n) : append tree n val k = tree k :=
  set_of_ne tree _ different

theorem Holds.ne_nil (holds : Holds tree n t) : avlNil ∉ t.ids := by
  induction t generalizing n with
  | nil => exact List.not_mem_nil
  | node id v l r ihl ihr =>
    obtain ⟨-, some, -, left, right, -⟩ := holds
    intro inside
    rcases List.mem_cons.mp inside with same | inside
    · exact some same.symm
    · rcases List.mem_append.mp inside with inL | inR
      · exact ihl left inL
      · exact ihr right inR

theorem Holds.at {a : AvlValue} (holds : Holds tree n t) (inside : NamedTree.At res a t) : (tree res).val = a := by
  induction t generalizing n with
  | nil => exact inside.elim
  | node id v l r ihl ihr =>
    obtain ⟨-, -, val, left, right, -⟩ := holds
    rcases inside with ⟨rfl, rfl⟩ | inL | inR
    · exact val
    · exact ihl left inL
    · exact ihr right inR

theorem Holds.length_lt (holds : Holds tree n t) (distinct : t.ids.Nodup) (bound : ∀ k ∈ t.ids, k ≤ last) :
    t.ids.length ≤ last := by
  have within : t.ids ⊆ (List.range (last + 1)).erase avlNil := by
    intro k inside
    have some : k ≠ avlNil := fun none => holds.ne_nil (none ▸ inside)
    rw [List.nodup_range.mem_erase_iff]
    exact ⟨some, List.mem_range.mpr (Nat.lt_succ_of_le (bound k inside))⟩
  have counted := (List.subperm_of_subset distinct within).length_le
  have isNil : avlNil ∈ List.range (last + 1) := List.mem_range.mpr (Nat.succ_pos last)
  rw [List.length_erase_of_mem isNil, List.length_range] at counted
  exact counted

theorem findNodeLoop_spec (cmp : AvlValue → AvlValue → Int) (val : AvlValue) {fuel : Nat} (holds : Holds tree n t)
    (nonempty : t ≠ .nil) (enough : t.height ≤ fuel) :
    findNodeLoop cmp tree val fuel n = .ok ((t.find cmp val).getD avlNil) := by
  induction fuel generalizing n t with
  | zero =>
    cases t with
    | nil => exact absurd rfl nonempty
    | node id v l r => simp [NamedTree.height] at enough
  | succ fuel ih =>
    cases t with
    | nil => exact absurd rfl nonempty
    | node id v l r =>
      obtain ⟨rfl, some, isVal, left, right, -⟩ := holds
      simp only [NamedTree.height] at enough
      -- On either side: the search ends there, or goes on in that tree.
      have side : ∀ {k : AvlNid} {s : NamedTree AvlNid AvlValue}, Holds tree k s → s.height ≤ fuel →
          (if k = avlNil then .ok avlNil else findNodeLoop cmp tree val fuel k) = .ok ((s.find cmp val).getD avlNil) := by
        intro k s holds enough
        cases s with
        | nil => rw [if_pos (show k = avlNil from holds)]; rfl
        | node id' v' l' r' =>
          have different : k ≠ avlNil := holds.1 ▸ holds.2.1
          rw [if_neg different]
          exact ih holds (by simp) enough
      unfold findNodeLoop NamedTree.find
      dsimp only
      rw [isVal]
      by_cases equal : cmp val v = 0
      · rw [if_pos equal, if_pos equal]
        rfl
      rw [if_neg equal, if_neg equal]
      by_cases less : cmp val v < 0
      · rw [if_pos less, if_pos less]
        exact side left (by omega)
      · rw [if_neg less, if_neg less]
        exact side right (by omega)

theorem insert_other {fuel : Nat} (result : insert cmp val fuel n tree = .ok (tree', res)) (other : res ≠ val) :
    tree' = tree ∧ cmp (tree val).val (tree res).val = 0 := by
  induction fuel generalizing n tree' with
  | zero => cases result
  | succ fuel ih =>
    unfold insert at result
    dsimp only at result
    by_cases equal : cmp (tree val).val (tree n).val = 0
    · rw [if_pos equal] at result
      cases result
      exact ⟨rfl, equal⟩
    rw [if_neg equal] at result
    split at result
    all_goals
      split at result
      · cases result
        exact absurd rfl other
      · obtain ⟨⟨middle, found⟩, first, rest⟩ := bind_ok.mp result
        dsimp only at rest
        by_cases isOther : found ≠ val
        · rw [if_pos isOther] at rest
          cases rest
          exact ih first
        rw [if_neg isOther] at rest
        split at rest
        · split at rest
          all_goals
            cases rest
            exact absurd other isOther
        · cases rest
          exact absurd other isOther

/-- What a node inserted with Get_Node does to a search tree. -/
structure Accepts (key : AvlValue → κ) (tree tree' : AvlTree) (n : AvlNid) (val : AvlValue) (t t' : NamedTree AvlNid AvlValue)
    (res : AvlNid) : Prop where
  searches : Searches key tree' n t'
  /-- A new value: the new node is returned, and the value has its place. -/
  new : (∀ a ∈ t.vals, key a ≠ key val) → res = n ∧ NamedTree.Placed key val t.vals t'.vals
  /-- An equal value: its node is returned, and nothing has changed. -/
  found : (∃ a ∈ t.vals, key a = key val) → NamedTree.At res (tree' res).val t ∧ key (tree' res).val = key val ∧
    res ≠ n ∧ tree' = tree ∧ t' = t

theorem vals_ne_nil {t : NamedTree AvlNid AvlValue} {a : AvlValue} (inside : a ∈ t.vals) : t ≠ .nil := by
  rintro rfl
  exact absurd inside List.not_mem_nil

theorem Searches.cons (searches : Searches key tree last t) (val : AvlValue) (kept : last ≠ 0) :
    Searches key (append tree (last + 1) val) (last + 1) t := by
  obtain ⟨nonempty, holds⟩ : t ≠ .nil ∧ Holds tree avlRoot t := by
    have root := searches.root
    rwa [if_neg kept] at root
  have same : ∀ k ∈ t.ids, append tree (last + 1) val k = tree k := fun k inside =>
    append_of_ne tree val (Nat.ne_of_lt (Nat.lt_succ_of_le (searches.bound k inside)))
  refine ⟨?_, searches.distinct, fun k inside => Nat.le_succ_of_le (searches.bound k inside), searches.balanced,
    searches.ordered⟩
  rw [if_neg (Nat.succ_ne_zero last)]
  exact ⟨nonempty, holds.frame same⟩

theorem Holds.at_val (holds : Holds tree n t) (inside : res ∈ t.ids) : NamedTree.At res (tree res).val t := by
  induction t generalizing n with
  | nil => exact absurd inside List.not_mem_nil
  | node id v l r ihl ihr =>
    obtain ⟨-, -, val, left, right, -⟩ := holds
    rcases List.mem_cons.mp inside with same | inside
    · exact Or.inl ⟨same, by rw [same, val]⟩
    · rcases List.mem_append.mp inside with inL | inR
      · exact Or.inr (Or.inl (ihl left inL))
      · exact Or.inr (Or.inr (ihr right inR))

theorem placed_apart {l l' : List AvlValue} {a : AvlValue} (placed : NamedTree.Placed key val l l') (inside : a ∈ l) :
    key a ≠ key val := by
  obtain ⟨⟨before, after, isL, isL'⟩, ordered⟩ := placed
  rw [isL', NamedTree.Ordered] at ordered
  obtain ⟨-, rest, across⟩ := List.pairwise_append.mp ordered
  rw [isL] at inside
  rcases List.mem_append.mp inside with inside | inside
  · exact ne_of_lt (across a inside val List.mem_cons_self)
  · exact ne_of_gt ((List.pairwise_cons.mp rest).1 a inside)

theorem getNode_insert (result : getNode cmp tree n n = .ok (tree', res)) : insert cmp n n avlRoot tree = .ok (tree', res) := by
  unfold getNode at result
  rw [if_neg (not_not.mpr rfl)] at result
  obtain ⟨⟨middle, found⟩, first, rest⟩ := bind_ok.mp (show (insert cmp n n avlRoot tree >>= _) = _ from result)
  obtain ⟨-, -, rest⟩ := bind_ok.mp rest
  cases rest
  exact first

theorem Searches.insert (compares : NamedTree.Compares cmp key) (searches : Searches key tree last t) (val : AvlValue) :
    ∃ tree' res t', getNode cmp (append tree (last + 1) val) (last + 1) (last + 1) = .ok (tree', res) ∧
      Accepts key (append tree (last + 1) val) tree' (last + 1) val t t' res := by
  have root := searches.root
  have node := append_self tree (last + 1) val
  by_cases first : last = 0
  · rw [if_pos first] at root
    subst root
    subst first
    obtain ⟨run, holds⟩ := getNode_first cmp node ((compares.eq val val).mpr rfl)
    have alone : Searches key (append tree 1 val) 1 (.node avlRoot val .nil .nil) := by
      refine ⟨?_, List.nodup_singleton _, fun k inside => ?_, ⟨trivial, trivial, Nat.zero_le _, Nat.zero_le _⟩,
        List.pairwise_singleton _ _⟩
      · rw [if_neg Nat.one_ne_zero]
        exact ⟨by simp, holds⟩
      · exact Nat.le_of_eq (List.mem_singleton.mp inside)
    refine ⟨_, _, _, run, alone, fun _ => ⟨rfl, ⟨[], [], rfl, rfl⟩, List.pairwise_singleton _ _⟩, fun same => ?_⟩
    obtain ⟨a, inside, -⟩ := same
    exact absurd inside List.not_mem_nil
  have kept := searches.cons val first
  have rootKept := kept.root
  rw [if_neg (Nat.succ_ne_zero last)] at rootKept
  obtain ⟨nonempty, holds⟩ := rootKept
  have outside : last + 1 ∉ t.ids := fun inside => absurd (searches.bound _ inside) (Nat.not_succ_le_self last)
  have fresh : Fresh (append tree (last + 1) val) (last + 1) val t := ⟨Nat.succ_ne_zero last, node, outside⟩
  have size := holds.length_lt searches.distinct searches.bound
  have run := getNode_spec cmp holds nonempty searches.distinct searches.balanced fresh (Nat.lt_succ_of_le size)
  have placed := NamedTree.insert_vals compares (last + 1) val searches.ordered
  cases result : NamedTree.insert cmp (last + 1) val t with
  | none =>
    rw [result] at run placed
    obtain ⟨res, other, run⟩ := run
    obtain ⟨b, inside, same⟩ := placed
    have inserted := insert_spec cmp holds nonempty searches.distinct fresh
      ((NamedTree.height_le_length t).trans (Nat.le_succ_of_le size))
    rw [result] at inserted
    obtain ⟨res', inTree, inserts⟩ := inserted
    rw [getNode_insert run] at inserts
    obtain rfl : res = res' := congrArg Prod.snd (Except.ok.inj inserts)
    have equal := (compares.eq _ _).mp (insert_other (getNode_insert run) other).2
    rw [node] at equal
    exact ⟨_, res, t, run, kept, fun none => absurd same (none b inside), fun _ =>
      ⟨holds.at_val inTree, equal.symm, other, rfl, rfl⟩⟩
  | some t' =>
    rw [result] at run placed
    obtain ⟨tree', run, made⟩ := run
    have perm := NamedTree.ids_insert cmp (last + 1) val result
    have grows := NamedTree.insert_grows cmp (last + 1) val searches.balanced result
    have nonempty' : t' ≠ .nil := by
      rintro rfl
      exact absurd perm (List.not_perm_nil_cons _ _)
    refine ⟨tree', last + 1, t', run, ⟨?_, ?_, fun k inside => ?_, grows.balanced, placed.ordered⟩,
      fun _ => ⟨rfl, placed⟩, fun same => ?_⟩
    · rw [if_neg (Nat.succ_ne_zero last)]
      exact ⟨nonempty', made.holds⟩
    · exact perm.nodup_iff.mpr (List.nodup_cons.mpr ⟨outside, searches.distinct⟩)
    · rcases List.mem_cons.mp (perm.mem_iff.mp inside) with same | inside
      · exact Nat.le_of_eq same
      · exact Nat.le_succ_of_le (searches.bound k inside)
    · obtain ⟨a, inside, same⟩ := same
      exact absurd same (placed_apart placed inside)

/-- The key is that of a value of the list. -/
def Among (key : AvlValue → κ) (b : κ) (l : List AvlValue) : Prop := ∃ a ∈ l, key a = b

theorem among_placed {l l' : List AvlValue} (placed : NamedTree.Placed key val l l') (b : κ) :
    Among key b l' ↔ key val = b ∨ Among key b l := by
  obtain ⟨⟨before, after, isL, isL'⟩, -⟩ := placed
  have members : ∀ a, a ∈ l' ↔ a = val ∨ a ∈ l := by
    intro a
    rw [isL, isL']
    simp only [List.mem_append, List.mem_cons]
    tauto
  constructor
  · rintro ⟨a, inside, same⟩
    rcases (members a).mp inside with rfl | inside
    · exact Or.inl same
    · exact Or.inr ⟨a, inside, same⟩
  · rintro (same | ⟨a, inside, same⟩)
    · exact ⟨val, (members val).mpr (Or.inl rfl), same⟩
    · exact ⟨a, (members a).mpr (Or.inr inside), same⟩

theorem Accepts.among (accepts : Accepts key tree tree' n val t t' res) (b : κ) :
    Among key b t'.vals ↔ key val = b ∨ Among key b t.vals := by
  by_cases present : Among key (key val) t.vals
  · obtain ⟨-, -, -, -, rfl⟩ := accepts.found present
    constructor
    · exact Or.inr
    · rintro (rfl | inside)
      · exact present
      · exact inside
  · exact among_placed (accepts.new fun a inside same => present ⟨a, inside, same⟩).2 b

theorem Accepts.drop (accepts : Accepts key (append tree (last + 1) val) tree' (last + 1) val t t' res)
    (searches : Searches key tree last t) (other : res ≠ last + 1) : Searches key tree' last t' := by
  have present : Among key (key val) t.vals := by
    by_contra absent
    exact other (accepts.new fun a inside same => absent ⟨a, inside, same⟩).1
  obtain ⟨-, -, -, rfl, rfl⟩ := accepts.found present
  obtain ⟨a, inside, -⟩ := present
  have root := searches.root
  by_cases first : last = 0
  · rw [if_pos first] at root
    exact absurd root (vals_ne_nil inside)
  have holds := (searches.cons val first).root
  rw [if_neg (Nat.succ_ne_zero last)] at holds
  refine ⟨?_, searches.distinct, searches.bound, searches.balanced, searches.ordered⟩
  rw [if_neg first]
  exact holds

theorem Inserted.searches (compares : NamedTree.Compares cmp key) (inserted : Inserted cmp tree last values) :
    ∃ t, Searches key tree last t ∧ ∀ b, Among key b t.vals ↔ Among key b values := by
  induction inserted with
  | empty tree =>
    refine ⟨.nil, ⟨?_, List.nodup_nil, fun n inside => absurd inside List.not_mem_nil, trivial, List.Pairwise.nil⟩,
      fun b => Iff.rfl⟩
    rw [if_pos rfl]
  | insert val inserted result kept ih =>
    obtain ⟨t, searches, values⟩ := ih
    obtain ⟨tree', res, t', run, accepts⟩ := searches.insert compares val
    rw [run] at result
    cases result
    refine ⟨t', ?_, fun b => ?_⟩
    · rcases kept with rfl | ⟨rfl, other⟩
      · exact accepts.searches
      · exact accepts.drop searches other
    · rw [accepts.among, values]
      simp [Among]

theorem Searches.find (compares : NamedTree.Compares cmp key) (searches : Searches key tree last t) (val : AvlValue) :
    ∃ n, findNode cmp tree last val = .ok n ∧ (n ≠ avlNil ↔ Among key (key val) t.vals) ∧
      (n ≠ avlNil → NamedTree.At n (tree n).val t ∧ key (tree n).val = key val) := by
  have root := searches.root
  by_cases first : last = 0
  · rw [if_pos first] at root
    subst root
    refine ⟨avlNil, ?_, iff_of_false (not_not.mpr rfl) ?_, fun some => absurd rfl some⟩
    · unfold findNode
      rw [if_pos (show last < avlRoot by rw [first]; exact Nat.one_pos)]
    · rintro ⟨a, inside, -⟩
      exact absurd inside List.not_mem_nil
  rw [if_neg first] at root
  obtain ⟨nonempty, holds⟩ := root
  have size := holds.length_lt searches.distinct searches.bound
  have loop := findNodeLoop_spec cmp val holds nonempty ((NamedTree.height_le_length t).trans size)
  have found := NamedTree.find_spec compares val searches.ordered
  have run : findNode cmp tree last val = .ok ((t.find cmp val).getD avlNil) := by
    unfold findNode
    rw [if_neg (show ¬ last < avlRoot from fun below => first (Nat.lt_one_iff.mp below)), loop]
  refine ⟨_, run, ?_⟩
  cases result : t.find cmp val with
  | none =>
    rw [result] at found
    refine ⟨iff_of_false (not_not.mpr rfl) ?_, fun some => absurd rfl some⟩
    rintro ⟨a, inside, same⟩
    exact found a inside same
  | some n =>
    rw [result] at found
    obtain ⟨a, inside, same⟩ := found
    have some : n ≠ avlNil := fun none => holds.ne_nil (none ▸ inside.id_mem)
    refine ⟨iff_of_true some ⟨a, inside.val_mem, same⟩, fun _ => ?_⟩
    rw [Option.getD_some, holds.at inside]
    exact ⟨inside, same⟩

/-- In every array made by insertions: a node is inserted without a failed check, as a new value or as one that is
found, and a search finds a node for exactly the values inserted. -/
theorem inserted_accepts (compares : NamedTree.Compares cmp key) (inserted : Inserted cmp tree last values) :
    ∃ t, Searches key tree last t ∧ (∀ b, Among key b t.vals ↔ Among key b values) ∧
      (∀ val, ∃ tree' res t', getNode cmp (append tree (last + 1) val) (last + 1) (last + 1) = .ok (tree', res) ∧
        Accepts key (append tree (last + 1) val) tree' (last + 1) val t t' res) ∧
      ∀ val, ∃ n, findNode cmp tree last val = .ok n ∧ (n ≠ avlNil ↔ Among key (key val) values) ∧
        (n ≠ avlNil → NamedTree.At n (tree n).val t ∧ key (tree n).val = key val) := by
  obtain ⟨t, searches, among⟩ := inserted.searches compares
  refine ⟨t, searches, among, searches.insert compares, fun val => ?_⟩
  obtain ⟨n, run, isFound, at'⟩ := searches.find compares val
  exact ⟨n, run, isFound.trans (among _), at'⟩

/-- The comparison of numbers. -/
def difference (a b : AvlValue) : Int := a - b

theorem difference_compares : NamedTree.Compares difference (Nat.cast : AvlValue → Int) :=
  ⟨fun _ _ => sub_eq_zero, fun _ _ => sub_neg⟩

/-- Three insertions, of which the last one rotates twice, and one of a value that is there. -/
theorem inserted_accepts_four : ∃ tree, Inserted difference tree 3 [3, 2, 1, 3] ∧
    ∃ n, findNode difference tree 3 2 = .ok n ∧ (n ≠ avlNil ↔ Among (Nat.cast : AvlValue → Int) 2 [3, 2, 1, 3]) := by
  have inserted : ∃ tree, Inserted difference tree 3 [3, 2, 1, 3] :=
    ⟨_, .insert 3 (.insert 2 (.insert 1 (.insert 3 (.empty ⟨fun _ => ⟨0, 0, 0, 0⟩⟩) rfl (Or.inl rfl)) rfl (Or.inl rfl)) rfl
      (Or.inl rfl)) rfl (Or.inr ⟨rfl, by decide⟩)⟩
  obtain ⟨tree, inserted⟩ := inserted
  obtain ⟨t, -, -, -, find⟩ := inserted_accepts difference_compares inserted
  obtain ⟨n, run, isFound, -⟩ := find 2
  exact ⟨tree, inserted, n, run, isFound⟩

end Ghdl.Avls
