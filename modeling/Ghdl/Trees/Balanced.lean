import Mathlib

/-!
# Balanced search trees

Binary trees whose nodes have an identity and a value. A rotation moves the values, and leaves the root where it is.
An insertion descends to an empty tree and rotates on the way back where one side has become two higher than the
other: so the tree stays balanced, and its values are those it had, with the new one in its place.
-/

namespace Trees

/-- A tree with named nodes. -/
inductive NamedTree (ι α : Type*) where
  | nil
  | node (id : ι) (val : α) (left right : NamedTree ι α)

namespace NamedTree

variable {ι α κ : Type*}

def height : NamedTree ι α → Nat
  | nil => 0
  | node _ _ l r => max l.height r.height + 1

/-- The values, from left to right. -/
def vals : NamedTree ι α → List α
  | nil => []
  | node _ v l r => l.vals ++ v :: r.vals

/-- The nodes. -/
def ids : NamedTree ι α → List ι
  | nil => []
  | node n _ l r => n :: (l.ids ++ r.ids)

/-- No side of a node is higher than the other one by more than one. -/
def Balanced : NamedTree ι α → Prop
  | nil => True
  | node _ _ l r => l.Balanced ∧ r.Balanced ∧ l.height ≤ r.height + 1 ∧ r.height ≤ l.height + 1

/-- The left side of the tree. -/
def left : NamedTree ι α → NamedTree ι α
  | nil => nil
  | node _ _ l _ => l

/-- The right side of the tree. -/
def right : NamedTree ι α → NamedTree ι α
  | nil => nil
  | node _ _ _ r => r

/-- The right child becomes the left one. -/
def rotateRight : NamedTree ι α → NamedTree ι α
  | node n v l (node r w m rr) => node n w (node r v l m) rr
  | t => t

/-- The left child becomes the right one. -/
def rotateLeft : NamedTree ι α → NamedTree ι α
  | node n v (node l w ll m) r => node n w ll (node l v m r)
  | t => t

/-- After an insertion on the left. -/
def balanceLeft (n : ι) (v : α) (l r : NamedTree ι α) : NamedTree ι α :=
  if l.height = r.height + 2 then
    if l.right.height < l.left.height then rotateLeft (node n v l r) else rotateLeft (node n v (rotateRight l) r)
  else node n v l r

/-- After an insertion on the right. -/
def balanceRight (n : ι) (v : α) (l r : NamedTree ι α) : NamedTree ι α :=
  if r.height = l.height + 2 then
    if r.left.height < r.right.height then rotateRight (node n v l r) else rotateRight (node n v l (rotateLeft r))
  else node n v l r

/-- Insert a value in a new node, unless there is an equal one. -/
def insert (cmp : α → α → Int) (id : ι) (val : α) : NamedTree ι α → Option (NamedTree ι α)
  | nil => some (node id val nil nil)
  | node n v l r =>
    if cmp val v = 0 then none
    else if cmp val v < 0 then (insert cmp id val l).map fun l => balanceLeft n v l r
    else (insert cmp id val r).map fun r => balanceRight n v l r

/-- The tree with its sides exchanged. -/
def mirror : NamedTree ι α → NamedTree ι α
  | nil => nil
  | node n v l r => node n v r.mirror l.mirror

section

variable (t : NamedTree ι α)
include t

@[simp] theorem mirror_mirror : t.mirror.mirror = t := by
  induction t with
  | nil => rfl
  | node n v l r ihl ihr => rw [mirror, mirror, ihl, ihr]

@[simp] theorem height_mirror : t.mirror.height = t.height := by
  induction t with
  | nil => rfl
  | node n v l r ihl ihr => rw [mirror, height, height, ihl, ihr, max_comm]

@[simp] theorem left_mirror : t.mirror.left = t.right.mirror := by
  cases t <;> rfl

@[simp] theorem right_mirror : t.mirror.right = t.left.mirror := by
  cases t <;> rfl

theorem vals_mirror : t.mirror.vals = t.vals.reverse := by
  induction t with
  | nil => rfl
  | node n v l r ihl ihr => simp [mirror, vals, ihl, ihr]

theorem ids_mirror : t.mirror.ids.Perm t.ids := by
  induction t with
  | nil => exact List.Perm.refl _
  | node n v l r ihl ihr => exact ((ihr.append ihl).trans List.perm_append_comm).cons n

theorem balanced_mirror : t.mirror.Balanced ↔ t.Balanced := by
  induction t with
  | nil => exact Iff.rfl
  | node n v l r ihl ihr =>
    simp only [mirror, Balanced, height_mirror, ihl, ihr]
    tauto

theorem rotateLeft_eq : t.rotateLeft = t.mirror.rotateRight.mirror := by
  cases t with
  | nil => rfl
  | node n v l r => cases l <;> simp [rotateLeft, rotateRight, mirror]

end

theorem balanceLeft_eq (n : ι) (v : α) (l r : NamedTree ι α) :
    balanceLeft n v l r = (balanceRight n v r.mirror l.mirror).mirror := by
  have whole (l : NamedTree ι α) : rotateLeft (node n v l r) = (rotateRight (node n v r.mirror l.mirror)).mirror :=
    rotateLeft_eq _
  have inner : (rotateRight l).mirror = rotateLeft l.mirror := by rw [rotateLeft_eq, mirror_mirror]
  unfold balanceLeft balanceRight
  rw [height_mirror, height_mirror, left_mirror, right_mirror, height_mirror, height_mirror, whole, whole, inner]
  split
  · split <;> rfl
  · simp [mirror]

@[simp] theorem vals_rotateRight (t : NamedTree ι α) : t.rotateRight.vals = t.vals := by
  cases t with
  | nil => rfl
  | node n v l r =>
    cases r with
    | nil => rfl
    | node r w m rr => simp [rotateRight, vals]

@[simp] theorem vals_rotateLeft (t : NamedTree ι α) : t.rotateLeft.vals = t.vals := by
  rw [rotateLeft_eq, vals_mirror, vals_rotateRight, vals_mirror, List.reverse_reverse]

theorem vals_balanceRight (n : ι) (v : α) (l r : NamedTree ι α) : (balanceRight n v l r).vals = l.vals ++ v :: r.vals := by
  unfold balanceRight
  split
  · split
    · rw [vals_rotateRight, vals]
    · rw [vals_rotateRight, vals, vals_rotateLeft]
  · rfl

theorem vals_balanceLeft (n : ι) (v : α) (l r : NamedTree ι α) : (balanceLeft n v l r).vals = l.vals ++ v :: r.vals := by
  simp [balanceLeft_eq, vals_mirror, vals_balanceRight]

theorem ids_rotateRight (t : NamedTree ι α) : t.rotateRight.ids.Perm t.ids := by
  cases t with
  | nil => exact List.Perm.refl _
  | node n v l r =>
    cases r with
    | nil => exact List.Perm.refl _
    | node r w m rr =>
      have moved : (r :: (l.ids ++ (m.ids ++ rr.ids))).Perm (l.ids ++ r :: (m.ids ++ rr.ids)) := List.perm_middle.symm
      simpa [rotateRight, ids] using moved

theorem ids_rotateLeft (t : NamedTree ι α) : t.rotateLeft.ids.Perm t.ids := by
  rw [rotateLeft_eq]
  exact (ids_mirror _).trans ((ids_rotateRight _).trans (ids_mirror t))

theorem ids_balanceRight (n : ι) (v : α) (l r : NamedTree ι α) : (balanceRight n v l r).ids.Perm (node n v l r).ids := by
  unfold balanceRight
  split
  · split
    · exact ids_rotateRight _
    · exact (ids_rotateRight _).trans (((ids_rotateLeft r).append_left l.ids).cons n)
  · exact List.Perm.refl _

theorem ids_balanceLeft (n : ι) (v : α) (l r : NamedTree ι α) : (balanceLeft n v l r).ids.Perm (node n v l r).ids := by
  rw [balanceLeft_eq]
  exact (ids_mirror _).trans ((ids_balanceRight n v _ _).trans (ids_mirror (node n v l r)))

variable {t t' : NamedTree ι α}

theorem ids_insert (cmp : α → α → Int) (id : ι) (val : α)
    (result : insert cmp id val t = some t') : t'.ids.Perm (id :: t.ids) := by
  induction t generalizing t' with
  | nil =>
    obtain rfl := Option.some.inj result
    exact List.Perm.refl _
  | node n v l r ihl ihr =>
    unfold insert at result
    split at result
    · cases result
    · split at result
      · obtain ⟨l', isL, rfl⟩ := Option.map_eq_some_iff.mp result
        have sides : (n :: (l'.ids ++ r.ids)).Perm (n :: (id :: (l.ids ++ r.ids))) := ((ihl isL).append_right r.ids).cons n
        exact (ids_balanceLeft n v l' r).trans (sides.trans (List.Perm.swap id n _))
      · obtain ⟨r', isR, rfl⟩ := Option.map_eq_some_iff.mp result
        have sides : (n :: (l.ids ++ r'.ids)).Perm (n :: (id :: (l.ids ++ r.ids))) :=
          (((ihr isR).append_left l.ids).trans List.perm_middle).cons n
        exact (ids_balanceRight n v l r').trans (sides.trans (List.Perm.swap id n _))

theorem height_le_length (t : NamedTree ι α) : t.height ≤ t.ids.length := by
  induction t with
  | nil => exact Nat.le_refl 0
  | node n v l r ihl ihr =>
    simp only [height, ids, List.length_cons, List.length_append]
    omega

theorem balanceRight_leaf (n k : ι) (v w : α) (l : NamedTree ι α) :
    balanceRight n v l (node k w nil nil) = node n v l (node k w nil nil) := by
  have low : ¬ (node k w nil nil : NamedTree ι α).height = l.height + 2 := by
    simp only [height]
    omega
  unfold balanceRight
  rw [if_neg low]

/-- The comparison is that of the keys. -/
structure Compares [LinearOrder κ] (cmp : α → α → Int) (key : α → κ) : Prop where
  eq : ∀ a b, cmp a b = 0 ↔ key a = key b
  lt : ∀ a b, cmp a b < 0 ↔ key a < key b

variable [LinearOrder κ] {cmp : α → α → Int} {key : α → κ}

/-- Every value is less than the next ones. -/
def Ordered (key : α → κ) (l : List α) : Prop := l.Pairwise fun a b => key a < key b

/-- The list is the other one, with the value in its place. -/
structure Placed (key : α → κ) (val : α) (l l' : List α) : Prop where
  parts : ∃ before after, l = before ++ after ∧ l' = before ++ val :: after
  ordered : Ordered key l'

theorem insert_vals (compares : Compares cmp key) (id : ι) (val : α) (ordered : Ordered key t.vals) :
    match insert cmp id val t with
    | none => ∃ v ∈ t.vals, key v = key val
    | some t' => Placed key val t.vals t'.vals := by
  induction t with
  | nil => exact ⟨⟨[], [], rfl, rfl⟩, List.pairwise_singleton _ _⟩
  | node n v l r ihl ihr =>
    obtain ⟨orderedL, orderedVR, across⟩ := List.pairwise_append.mp ordered
    obtain ⟨beyond, orderedR⟩ := List.pairwise_cons.mp orderedVR
    have ihl := ihl orderedL
    have ihr := ihr orderedR
    unfold insert
    by_cases equal : cmp val v = 0
    · rw [if_pos equal]
      exact ⟨v, by simp [vals], ((compares.eq val v).mp equal).symm⟩
    rw [if_neg equal]
    by_cases less : cmp val v < 0
    · have under := (compares.lt val v).mp less
      rw [if_pos less]
      cases result : insert cmp id val l with
      | none =>
        rw [result] at ihl
        obtain ⟨w, inside, same⟩ := ihl
        exact ⟨w, by simp [vals, inside], same⟩
      | some l' =>
        rw [result] at ihl
        obtain ⟨⟨before, after, isL, isL'⟩, orderedL'⟩ := ihl
        show Placed key val _ (balanceLeft n v l' r).vals
        rw [vals_balanceLeft]
        refine ⟨⟨before, after ++ v :: r.vals, by simp [vals, isL], by simp [isL']⟩, ?_⟩
        refine List.pairwise_append.mpr ⟨orderedL', orderedVR, fun a inA b inB => ?_⟩
        have old : ∀ a ∈ l.vals, key a < key b := fun a inA => across a inA b inB
        rw [isL'] at inA
        rcases List.mem_append.mp inA with inA | inA
        · exact old a (by rw [isL]; exact List.mem_append_left _ inA)
        rcases List.mem_cons.mp inA with rfl | inA
        · rcases List.mem_cons.mp inB with rfl | inB
          · exact under
          · exact lt_trans under (beyond b inB)
        · exact old a (by rw [isL]; exact List.mem_append_right _ inA)
    have above : key v < key val := by
      rcases lt_trichotomy (key v) (key val) with above | same | under
      · exact above
      · exact absurd ((compares.eq val v).mpr same.symm) equal
      · exact absurd ((compares.lt val v).mpr under) less
    rw [if_neg less]
    cases result : insert cmp id val r with
    | none =>
      rw [result] at ihr
      obtain ⟨w, inside, same⟩ := ihr
      exact ⟨w, by simp [vals, inside], same⟩
    | some r' =>
      rw [result] at ihr
      obtain ⟨⟨before, after, isR, isR'⟩, orderedR'⟩ := ihr
      show Placed key val _ (balanceRight n v l r').vals
      rw [vals_balanceRight]
      refine ⟨⟨l.vals ++ v :: before, after, by simp [vals, isR], by simp [isR']⟩, ?_⟩
      have beyond' : ∀ b ∈ r'.vals, key v < key b := by
        intro b inB
        rw [isR'] at inB
        rcases List.mem_append.mp inB with inB | inB
        · exact beyond b (by rw [isR]; exact List.mem_append_left _ inB)
        · rcases List.mem_cons.mp inB with rfl | inB
          · exact above
          · exact beyond b (by rw [isR]; exact List.mem_append_right _ inB)
      refine List.pairwise_append.mpr ⟨orderedL, List.pairwise_cons.mpr ⟨beyond', orderedR'⟩, fun a inA b inB => ?_⟩
      have below : key a < key v := across a inA v List.mem_cons_self
      rcases List.mem_cons.mp inB with rfl | inB
      · exact below
      · exact lt_trans below (beyond' b inB)

variable {l r : NamedTree ι α}

theorem balanceRight_high (n : ι) (v : α) (balancedL : l.Balanced) (balancedR : r.Balanced)
    (high : r.height = l.height + 2) (uneven : r.left.height ≠ r.right.height) :
    (balanceRight n v l r).Balanced ∧ (balanceRight n v l r).height = l.height + 2 := by
  unfold balanceRight
  rw [if_pos high]
  cases r with
  | nil => cases high
  | node k w a b =>
    obtain ⟨balancedA, balancedB, above, below⟩ := balancedR
    simp only [left, right] at uneven
    simp only [height] at high
    by_cases single : (node k w a b).left.height < (node k w a b).right.height
    · rw [if_pos single]
      simp only [left, right] at single
      simp only [rotateRight, Balanced, height]
      refine ⟨⟨⟨balancedL, balancedA, ?_, ?_⟩, balancedB, ?_, ?_⟩, ?_⟩ <;> omega
    rw [if_neg single]
    simp only [left, right] at single
    cases a with
    | nil =>
      simp only [height] at single uneven
      omega
    | node k' w' c d =>
      obtain ⟨balancedC, balancedD, aboveC, belowC⟩ := balancedA
      simp only [height] at single uneven high above below
      simp only [rotateRight, rotateLeft, Balanced, height]
      refine ⟨⟨⟨balancedL, balancedC, ?_, ?_⟩, ⟨balancedD, balancedB, ?_, ?_⟩, ?_, ?_⟩, ?_⟩ <;> omega

/-- What an insertion makes of a balanced tree: it is balanced, and when it has grown, then one of its sides is
higher than the other. -/
structure Grows (t t' : NamedTree ι α) : Prop where
  balanced : t'.Balanced
  height : t'.height = t.height ∨ t'.height = t.height + 1 ∧ (t = nil ∨ t'.left.height ≠ t'.right.height)

theorem Grows.balanceRight (n : ι) (v : α) {r' : NamedTree ι α} (grows : Grows r r')
    (balanced : (node n v l r).Balanced) : Grows (node n v l r) (balanceRight n v l r') := by
  obtain ⟨balancedL, -, above, below⟩ := balanced
  by_cases high : r'.height = l.height + 2
  · have grown : r'.height = r.height + 1 ∧ (r = nil ∨ r'.left.height ≠ r'.right.height) := by
      rcases grows.height with same | grown
      · omega
      · exact grown
    have uneven : r'.left.height ≠ r'.right.height := by
      rcases grown.2 with rfl | uneven
      · simp only [NamedTree.height] at grown
        omega
      · exact uneven
    obtain ⟨balanced, height⟩ := balanceRight_high n v balancedL grows.balanced high uneven
    refine ⟨balanced, Or.inl ?_⟩
    rw [height, NamedTree.height]
    omega
  · unfold NamedTree.balanceRight
    rw [if_neg high]
    rcases grows.height with same | ⟨grown, -⟩
    · exact ⟨⟨balancedL, grows.balanced, by omega, by omega⟩, Or.inl (by rw [NamedTree.height, NamedTree.height, same])⟩
    refine ⟨⟨balancedL, grows.balanced, by omega, by omega⟩, ?_⟩
    simp only [NamedTree.height, left, right]
    by_cases taller : r'.height = l.height + 1
    · exact Or.inr ⟨by omega, Or.inr (by omega)⟩
    · exact Or.inl (by omega)

theorem Grows.mirror (grows : Grows t t') : Grows t.mirror t'.mirror := by
  refine ⟨(balanced_mirror t').mpr grows.balanced, ?_⟩
  rw [height_mirror, height_mirror, left_mirror, right_mirror, height_mirror, height_mirror]
  rcases grows.height with same | ⟨grown, rfl | uneven⟩
  · exact .inl same
  · exact .inr ⟨grown, .inl rfl⟩
  · exact .inr ⟨grown, .inr uneven.symm⟩

theorem Grows.balanceLeft (n : ι) (v : α) {l' : NamedTree ι α} (grows : Grows l l')
    (balanced : (node n v l r).Balanced) : Grows (node n v l r) (balanceLeft n v l' r) := by
  have mirrored := (grows.mirror.balanceRight n v ((balanced_mirror (node n v l r)).mpr balanced)).mirror
  rwa [← balanceLeft_eq, NamedTree.mirror, mirror_mirror, mirror_mirror] at mirrored

theorem insert_grows (cmp : α → α → Int) (id : ι) (val : α) (balanced : t.Balanced)
    (result : insert cmp id val t = some t') : Grows t t' := by
  induction t generalizing t' with
  | nil =>
    obtain rfl := Option.some.inj result
    exact ⟨⟨trivial, trivial, Nat.zero_le _, Nat.zero_le _⟩, Or.inr ⟨rfl, Or.inl rfl⟩⟩
  | node n v l r ihl ihr =>
    unfold insert at result
    split at result
    · cases result
    · split at result
      · obtain ⟨l', isL, rfl⟩ := Option.map_eq_some_iff.mp result
        exact (ihl balanced.1 isL).balanceLeft n v balanced
      · obtain ⟨r', isR, rfl⟩ := Option.map_eq_some_iff.mp result
        exact (ihr balanced.2.1 isR).balanceRight n v balanced

end NamedTree

end Trees
