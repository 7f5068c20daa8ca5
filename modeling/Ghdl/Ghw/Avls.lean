import Ghdl.System.Fallible
import Ghdl.Trees.Balanced

/-!
# Binary balanced trees in an array

The nodes of `grt-avls` are entries of an array, and 0 is no node. A rotation exchanges the values of two nodes, so
that the root of a subtree stays the same node. Where the array holds a balanced search tree, an insertion makes of
it the one that the value is inserted in, and the check of the heights passes.
-/

namespace Ghdl.Avls

open Trees Fallible Function

/-- `AVL_Nid`. -/
abbrev AvlNid := Nat

/-- `AVL_Value`. -/
abbrev AvlValue := Nat

def avlNil : AvlNid := 0

def avlRoot : AvlNid := 1

/-- `AVL_Node`. -/
structure AvlNode where
  val : AvlValue
  left : AvlNid
  right : AvlNid
  height : Int
deriving DecidableEq, Repr

/-- `AVL_Tree`. -/
structure AvlTree where
  node : AvlNid → AvlNode

instance : CoeFun AvlTree fun _ => AvlNid → AvlNode := ⟨AvlTree.node⟩

/-- The calls of `Internal_Error`, and a recursion that is deeper than there are nodes. -/
inductive AvlError where
  | internalError (msg : String)
  | depth
deriving DecidableEq, Repr

/-- An assignment to a node. -/
def AvlTree.set (tree : AvlTree) (n : AvlNid) (f : AvlNode → AvlNode) : AvlTree :=
  ⟨update tree.node n (f (tree n))⟩

/-- `Get_Height`. -/
def getHeight (tree : AvlTree) (n : AvlNid) : Int := if n = avlNil then 0 else (tree n).height

/-- `Check_AVL`. -/
def checkAvl (tree : AvlTree) : Nat → AvlNid → Except AvlError Unit
  | 0, _ => .error .depth
  | fuel + 1, n => do
    if n = avlNil then return ()
    let l := (tree n).left
    let r := (tree n).right
    let h := getHeight tree n
    if l = avlNil ∧ r = avlNil then
      if h ≠ 1 then throw (.internalError "check_AVL(1)")
    else if l = avlNil then
      checkAvl tree fuel r
      if h ≠ getHeight tree r + 1 ∨ h > 2 then throw (.internalError "check_AVL(2)")
    else if r = avlNil then
      checkAvl tree fuel l
      if h ≠ getHeight tree l + 1 ∨ h > 2 then throw (.internalError "check_AVL(3)")
    else
      checkAvl tree fuel l
      checkAvl tree fuel r
      let lh := getHeight tree l
      let rh := getHeight tree r
      if max lh rh + 1 ≠ h then throw (.internalError "check_AVL(4)")
      if rh - lh > 1 ∨ rh - lh < -1 then throw (.internalError "check_AVL(5)")

/-- `Compute_Height`. -/
def computeHeight (tree : AvlTree) (n : AvlNid) : AvlTree :=
  tree.set n fun node => { node with height := max (getHeight tree node.left) (getHeight tree node.right) + 1 }

/-- `Simple_Rotate_Right`. -/
def simpleRotateRight (tree : AvlTree) (n : AvlNid) : AvlTree :=
  let r := (tree n).right
  let tree := tree.set n fun node => { node with right := (tree r).right }
  let tree := tree.set r fun node => { node with right := node.left }
  let tree := tree.set r fun node => { node with left := (tree n).left }
  let tree := tree.set n fun node => { node with left := r }
  let v := (tree n).val
  let tree := tree.set n fun node => { node with val := (tree r).val }
  let tree := tree.set r fun node => { node with val := v }
  let tree := computeHeight tree r
  computeHeight tree n

/-- `Simple_Rotate_Left`. -/
def simpleRotateLeft (tree : AvlTree) (n : AvlNid) : AvlTree :=
  let l := (tree n).left
  let tree := tree.set n fun node => { node with left := (tree l).left }
  let tree := tree.set l fun node => { node with left := node.right }
  let tree := tree.set l fun node => { node with right := (tree n).right }
  let tree := tree.set n fun node => { node with right := l }
  let v := (tree n).val
  let tree := tree.set n fun node => { node with val := (tree l).val }
  let tree := tree.set l fun node => { node with val := v }
  let tree := computeHeight tree l
  computeHeight tree n

/-- `Double_Rotate_Right`. -/
def doubleRotateRight (tree : AvlTree) (n : AvlNid) : AvlTree :=
  simpleRotateRight (simpleRotateLeft tree (tree n).right) n

/-- `Double_Rotate_Left`. -/
def doubleRotateLeft (tree : AvlTree) (n : AvlNid) : AvlTree :=
  simpleRotateLeft (simpleRotateRight tree (tree n).left) n

/-- `Insert`: the tree, and Res. -/
def insert (cmp : AvlValue → AvlValue → Int) (val : AvlNid) : Nat → AvlNid → AvlTree → Except AvlError (AvlTree × AvlNid)
  | 0, _, _ => .error .depth
  | fuel + 1, n, tree =>
    let diff := cmp (tree val).val (tree n).val
    if diff = 0 then .ok (tree, n)
    else if diff < 0 then
      if (tree n).left = avlNil then
        let tree := tree.set n fun node => { node with left := val }
        .ok (computeHeight tree n, val)
      else do
        let ch := (tree n).left
        let opCh := (tree n).right
        let (tree, res) ← insert cmp val fuel ch tree
        if res ≠ val then return (tree, res)
        if getHeight tree ch - getHeight tree opCh = 2 then
          if getHeight tree (tree ch).left > getHeight tree (tree ch).right then return (simpleRotateLeft tree n, res)
          else return (doubleRotateLeft tree n, res)
        else return (computeHeight tree n, res)
    else
      if (tree n).right = avlNil then
        let tree := tree.set n fun node => { node with right := val }
        .ok (computeHeight tree n, val)
      else do
        let ch := (tree n).right
        let opCh := (tree n).left
        let (tree, res) ← insert cmp val fuel ch tree
        if res ≠ val then return (tree, res)
        if getHeight tree ch - getHeight tree opCh = 2 then
          if getHeight tree (tree ch).right > getHeight tree (tree ch).left then return (simpleRotateRight tree n, res)
          else return (doubleRotateRight tree n, res)
        else return (computeHeight tree n, res)

/-- `Get_Node`, for the array of the nodes 1 to LAST. -/
def getNode (cmp : AvlValue → AvlValue → Int) (tree : AvlTree) (last n : AvlNid) :
    Except AvlError (AvlTree × AvlNid) := do
  if n ≠ last then throw (.internalError "avls.get_node")
  let (tree, res) ← insert cmp n last avlRoot tree
  checkAvl tree (last + 1) avlRoot
  return (tree, res)

/-- The node is the root of this tree. -/
def Holds (tree : AvlTree) : AvlNid → NamedTree AvlNid AvlValue → Prop
  | n, .nil => n = avlNil
  | n, .node id v l r =>
    n = id ∧ id ≠ avlNil ∧ (tree id).val = v ∧ Holds tree (tree id).left l ∧ Holds tree (tree id).right r ∧
      (tree id).height = (NamedTree.node id v l r).height

variable {tree tree' : AvlTree} {t l r : NamedTree AvlNid AvlValue} {n : AvlNid}

theorem Holds.height (holds : Holds tree n t) : getHeight tree n = t.height := by
  cases t with
  | nil =>
    have none : n = avlNil := holds
    rw [getHeight, if_pos none]
    rfl
  | node id v l r =>
    obtain ⟨rfl, some, -, -, -, height⟩ := holds
    rw [getHeight, if_neg some, height]

theorem Holds.frame (holds : Holds tree n t) (same : ∀ k ∈ t.ids, tree' k = tree k) : Holds tree' n t := by
  induction t generalizing n with
  | nil => exact holds
  | node id v l r ihl ihr =>
    obtain ⟨rfl, some, val, left, right, height⟩ := holds
    have self := same n (by simp [NamedTree.ids])
    refine ⟨rfl, some, by rw [self, val], ?_, ?_, by rw [self, height]⟩
    · rw [self]
      exact ihl left fun k inside => same k (by simp [NamedTree.ids, inside])
    · rw [self]
      exact ihr right fun k inside => same k (by simp [NamedTree.ids, inside])

/-- The node has these sides; its height need not be theirs. -/
structure Sides (tree : AvlTree) (n : AvlNid) (v : AvlValue) (l r : NamedTree AvlNid AvlValue) : Prop where
  some : n ≠ avlNil
  val : (tree n).val = v
  left : Holds tree (tree n).left l
  right : Holds tree (tree n).right r
  distinct : (NamedTree.node n v l r).ids.Nodup

variable {v : AvlValue}

theorem Sides.apart (sides : Sides tree n v l r) :
    n ∉ l.ids ∧ n ∉ r.ids ∧ l.ids.Nodup ∧ r.ids.Nodup ∧ ∀ k ∈ l.ids, k ∉ r.ids := by
  obtain ⟨notSelf, both⟩ := List.nodup_cons.mp sides.distinct
  obtain ⟨distinctL, distinctR, disjoint⟩ := List.nodup_append.mp both
  refine ⟨fun inside => notSelf (List.mem_append_left _ inside), fun inside => notSelf (List.mem_append_right _ inside),
    distinctL, distinctR, fun k inL inR => disjoint k inL k inR rfl⟩

theorem Holds.sides {id : AvlNid} (holds : Holds tree n (.node id v l r))
    (distinct : (NamedTree.node id v l r).ids.Nodup) : n = id ∧ Sides tree n v l r := by
  obtain ⟨rfl, some, val, left, right, -⟩ := holds
  exact ⟨rfl, some, val, left, right, distinct⟩

/-- What an operation at a node does: it makes the tree at the node, and changes the nodes of the tree alone. -/
structure Makes (tree tree' : AvlTree) (n : AvlNid) (nodes : List AvlNid) (t : NamedTree AvlNid AvlValue) : Prop where
  holds : Holds tree' n t
  same : ∀ k, k ∉ nodes → tree' k = tree k

theorem set_self (tree : AvlTree) (n : AvlNid) (f : AvlNode → AvlNode) : tree.set n f n = f (tree n) :=
  update_self _ _ _

variable {k : AvlNid}

theorem set_of_ne (tree : AvlTree) {n : AvlNid} (f : AvlNode → AvlNode) (different : k ≠ n) : tree.set n f k = tree k :=
  update_of_ne different _ _

theorem Sides.computeHeight (sides : Sides tree n v l r) : Makes tree (computeHeight tree n) n [n] (.node n v l r) := by
  obtain ⟨notL, notR, -, -, -⟩ := sides.apart
  have others : ∀ k, k ≠ n → Avls.computeHeight tree n k = tree k := fun k different => set_of_ne tree _ different
  have self : Avls.computeHeight tree n n =
      { tree n with height := max (getHeight tree (tree n).left) (getHeight tree (tree n).right) + 1 } :=
    set_self tree n _
  refine ⟨⟨rfl, sides.some, by rw [self, ← sides.val], ?_, ?_, ?_⟩, fun k outside => others k fun same => outside (by simp [same])⟩
  · rw [self]
    exact sides.left.frame fun k inside => others k fun same => notL (same ▸ inside)
  · rw [self]
    exact sides.right.frame fun k inside => others k fun same => notR (same ▸ inside)
  · rw [self, sides.left.height, sides.right.height]
    show max (l.height : Int) r.height + 1 = ((max l.height r.height + 1 : Nat) : Int)
    omega

variable {w : AvlValue}

theorem Sides.simpleRotateRight {m : NamedTree AvlNid AvlValue} (sides : Sides tree n v l (.node k w m r)) :
    Makes tree (simpleRotateRight tree n) n (NamedTree.node n v l (.node k w m r)).ids
      (.node n w (.node k v l m) r) := by
  obtain ⟨notL, notR, distinctL, distinctR, disjoint⟩ := sides.apart
  obtain ⟨isK, inner⟩ := sides.right.sides distinctR
  obtain ⟨notM, notRR, distinctM, distinctRR, disjoint'⟩ := inner.apart
  rw [isK] at inner notM notRR
  have different : k ≠ n := fun same => notR (by simp [NamedTree.ids, same])
  -- The nodes when the values are exchanged, before the heights are computed.
  obtain ⟨tree₁, isTree₁⟩ : ∃ tree₁, Avls.simpleRotateRight tree n =
      Avls.computeHeight (Avls.computeHeight tree₁ k) n ∧
      tree₁ n = ⟨(tree k).val, k, (tree k).right, (tree n).height⟩ ∧
      tree₁ k = ⟨(tree n).val, (tree n).left, (tree k).left, (tree k).height⟩ ∧
      ∀ j, j ≠ n → j ≠ k → tree₁ j = tree j := by
    subst isK
    refine ⟨_, rfl, ?_, ?_, fun j notN notK => ?_⟩
    · simp [AvlTree.set, update, different, different.symm]
    · simp [AvlTree.set, update, different, different.symm]
    · simp [AvlTree.set, update, notN, notK]
  obtain ⟨result, atN, atK, others⟩ := isTree₁
  have perm : (NamedTree.node n w (.node k v l m) r).ids.Perm (NamedTree.node n v l (.node k w m r)).ids :=
    NamedTree.ids_rotateRight (.node n v l (.node k w m r))
  have distinct := perm.nodup_iff.mpr sides.distinct
  have lower : Sides tree₁ k v l m := by
    refine ⟨inner.some, by rw [atK, sides.val], ?_, ?_, ?_⟩
    · rw [atK]
      refine sides.left.frame fun j inside => others j (fun same => notL (same ▸ inside)) fun same => ?_
      exact disjoint j inside (by simp [NamedTree.ids, same])
    · rw [atK]
      refine inner.left.frame fun j inside => others j (fun same => notR ?_) fun same => notM (same ▸ inside)
      simp [NamedTree.ids, ← same, inside]
    · exact (List.nodup_append.mp (List.nodup_cons.mp distinct).2).1
  have made := lower.computeHeight
  have upper : Sides (Avls.computeHeight tree₁ k) n w (.node k v l m) r := by
    have self := made.same n (by simpa using different.symm)
    refine ⟨sides.some, by rw [self, atN, inner.val], ?_, ?_, distinct⟩
    · rw [self, atN]
      exact made.holds
    rw [self, atN]
    refine inner.right.frame fun j inside => ?_
    have notK : j ≠ k := fun same => notRR (same ▸ inside)
    rw [made.same j (by simpa using notK)]
    refine others j (fun same => notR ?_) notK
    simp [NamedTree.ids, ← same, inside]
  have whole := upper.computeHeight
  rw [result]
  refine ⟨whole.holds, fun j outside => ?_⟩
  have notN : j ≠ n := fun same => outside (by simp [NamedTree.ids, same])
  have notK : j ≠ k := fun same => outside (by simp [NamedTree.ids, same])
  rw [whole.same j (by simpa using notN), made.same j (by simpa using notK), others j notN notK]

/-- The array with the sides of each node exchanged. -/
def AvlTree.mirror (tree : AvlTree) : AvlTree :=
  ⟨fun n => { tree n with left := (tree n).right, right := (tree n).left }⟩

theorem computeHeight_mirror (tree : AvlTree) (n : AvlNid) : (computeHeight tree n).mirror = computeHeight tree.mirror n := by
  unfold computeHeight AvlTree.set AvlTree.mirror
  congr 1
  funext k
  by_cases here : k = n
  · subst here
    simp [getHeight, max_comm]
  · simp [here]

theorem simpleRotateLeft_eq (tree : AvlTree) (n : AvlNid) :
    simpleRotateLeft tree n = (simpleRotateRight tree.mirror n).mirror := by
  show computeHeight (computeHeight _ (tree n).left) n = (computeHeight (computeHeight _ (tree n).left) n).mirror
  rw [computeHeight_mirror, computeHeight_mirror]
  congr 2
  unfold AvlTree.set AvlTree.mirror
  congr 1
  funext k
  dsimp only
  by_cases here : k = n
  · subst here
    by_cases there : (tree.node k).left = k
    · simp [there]
    · simp [there, Ne.symm there]
  · by_cases there : k = (tree.node n).left
    · subst there
      simp [here, Ne.symm here]
    · simp [here, there]

theorem doubleRotateLeft_eq (tree : AvlTree) (n : AvlNid) :
    doubleRotateLeft tree n = (doubleRotateRight tree.mirror n).mirror := by
  unfold doubleRotateLeft doubleRotateRight
  rw [simpleRotateLeft_eq, simpleRotateLeft_eq tree.mirror]
  rfl

theorem holds_mirror : Holds tree.mirror n t.mirror ↔ Holds tree n t := by
  induction t generalizing n with
  | nil => exact Iff.rfl
  | node id v l r ihl ihr =>
    show (n = id ∧ id ≠ avlNil ∧ (tree id).val = v ∧ Holds tree.mirror (tree id).right r.mirror ∧
      Holds tree.mirror (tree id).left l.mirror ∧ (tree id).height = ((NamedTree.node id v l r).mirror.height : Int)) ↔ _
    rw [ihl, ihr, NamedTree.height_mirror, Holds]
    tauto

theorem Sides.mirror (sides : Sides tree n v l r) : Sides tree.mirror n v r.mirror l.mirror where
  some := sides.some
  val := sides.val
  left := holds_mirror.mpr sides.right
  right := holds_mirror.mpr sides.left
  distinct := (NamedTree.ids_mirror (.node n v l r)).nodup_iff.mpr sides.distinct

theorem Makes.mirror {nodes nodes' : List AvlNid} (made : Makes tree tree' n nodes t) (includes : nodes ⊆ nodes') :
    Makes tree.mirror tree'.mirror n nodes' t.mirror := by
  refine ⟨holds_mirror.mpr made.holds, fun k outside => ?_⟩
  unfold AvlTree.mirror
  dsimp only
  rw [made.same k fun inside => outside (includes inside)]

theorem Sides.simpleRotateLeft {m : NamedTree AvlNid AvlValue} (sides : Sides tree n v (.node k w l m) r) :
    Makes tree (simpleRotateLeft tree n) n (NamedTree.node n v (.node k w l m) r).ids
      (.node n w l (.node k v m r)) := by
  rw [simpleRotateLeft_eq]
  have made := sides.mirror.simpleRotateRight.mirror (NamedTree.ids_mirror (.node n v (.node k w l m) r)).subset
  simp only [NamedTree.mirror, NamedTree.mirror_mirror] at made
  exact made

variable {r' : NamedTree AvlNid AvlValue}

theorem Sides.right_made (sides : Sides tree n v l r)
    (made : Makes tree tree' (tree n).right r.ids r') (perm : r'.ids.Perm r.ids) : Sides tree' n v l r' := by
  obtain ⟨notL, notR, -, -, disjoint⟩ := sides.apart
  have self := made.same n notR
  refine ⟨sides.some, by rw [self, sides.val], ?_, by rw [self]; exact made.holds, ?_⟩
  · rw [self]
    exact sides.left.frame fun j inside => made.same j fun inR => disjoint j inside inR
  · exact ((perm.append_left l.ids).cons n).nodup_iff.mpr sides.distinct

theorem Makes.after {tree'' : AvlTree} {nodes first second : List AvlNid} {t' : NamedTree AvlNid AvlValue}
    (later : Makes tree' tree'' n second t) (earlier : Makes tree tree' k first t')
    (includes : ∀ j, j ∈ first ∨ j ∈ second → j ∈ nodes) : Makes tree tree'' n nodes t := by
  refine ⟨later.holds, fun j outside => ?_⟩
  rw [later.same j fun inside => outside (includes j (.inr inside)),
    earlier.same j fun inside => outside (includes j (.inl inside))]

theorem Sides.balanceRight (sides : Sides tree n v l r) (nonempty : r ≠ .nil) : Makes tree
      (if getHeight tree (tree n).right - getHeight tree (tree n).left = 2 then
        if getHeight tree (tree (tree n).right).right > getHeight tree (tree (tree n).right).left then
          Avls.simpleRotateRight tree n else doubleRotateRight tree n else Avls.computeHeight tree n)
      n (NamedTree.node n v l r).ids (NamedTree.balanceRight n v l r) := by
  cases r with
  | nil => exact absurd rfl nonempty
  | node k w a b =>
    obtain ⟨notL, notR, distinctL, distinctR, disjoint⟩ := sides.apart
    obtain ⟨isK, inner⟩ := sides.right.sides distinctR
    have high : getHeight tree (tree n).right - getHeight tree (tree n).left = 2 ↔
        (NamedTree.node k w a b).height = l.height + 2 := by
      rw [sides.left.height, sides.right.height]
      omega
    have single : getHeight tree (tree (tree n).right).right > getHeight tree (tree (tree n).right).left ↔
        (NamedTree.node k w a b).left.height < (NamedTree.node k w a b).right.height := by
      rw [inner.left.height, inner.right.height]
      simp only [NamedTree.left, NamedTree.right]
      omega
    unfold NamedTree.balanceRight
    by_cases isHigh : (NamedTree.node k w a b).height = l.height + 2
    · rw [if_pos isHigh, if_pos (high.mpr isHigh)]
      by_cases isSingle : (NamedTree.node k w a b).left.height < (NamedTree.node k w a b).right.height
      · rw [if_pos isSingle, if_pos (single.mpr isSingle)]
        exact sides.simpleRotateRight
      rw [if_neg isSingle, if_neg fun holds => isSingle (single.mp holds)]
      cases a with
      | nil =>
        simp only [NamedTree.left, NamedTree.right, NamedTree.height] at isSingle isHigh
        omega
      | node j x c d =>
        subst isK
        have first := inner.simpleRotateLeft
        have perm : (NamedTree.node (tree n).right x c (.node j w d b)).ids.Perm
            (NamedTree.node (tree n).right w (.node j x c d) b).ids :=
          NamedTree.ids_rotateLeft (.node (tree n).right w (.node j x c d) b)
        have second := (sides.right_made first perm).simpleRotateRight
        refine second.after first fun i inside => ?_
        have outer := (perm.append_left l.ids).cons n
        rcases inside with inside | inside
        · exact List.mem_cons_of_mem n (List.mem_append_right l.ids inside)
        · exact outer.mem_iff.mp inside
    · rw [if_neg isHigh, if_neg fun holds => isHigh (high.mp holds)]
      have made := sides.computeHeight
      refine ⟨made.holds, fun j outside => made.same j fun inside => outside ?_⟩
      rw [List.mem_singleton.mp inside]
      exact List.mem_cons_self

/-- A node that is not in the tree, with a value and no sides. -/
structure Fresh (tree : AvlTree) (val : AvlNid) (v : AvlValue) (t : NamedTree AvlNid AvlValue) : Prop where
  some : val ≠ avlNil
  node : tree val = ⟨v, avlNil, avlNil, 1⟩
  outside : val ∉ t.ids

variable {val : AvlNid}

theorem Fresh.mirror (fresh : Fresh tree val v t) : Fresh tree.mirror val v t.mirror where
  some := fresh.some
  node := by
    unfold AvlTree.mirror
    dsimp only
    rw [fresh.node]
  outside inside := fresh.outside ((NamedTree.ids_mirror t).mem_iff.mp inside)

theorem Sides.right_fresh (sides : Sides tree n w l .nil) (fresh : Fresh tree val v (.node n w l .nil)) :
    Sides (tree.set n fun node => { node with right := val }) n w l (.node val v .nil .nil) := by
  obtain ⟨notL, -, distinctL, -, -⟩ := sides.apart
  have different : val ≠ n := fun same => fresh.outside (by simp [NamedTree.ids, same])
  have self := set_self tree n fun node => { node with right := val }
  have others : ∀ k, k ≠ n → (tree.set n fun node => { node with right := val }) k = tree k :=
    fun k => set_of_ne tree _
  refine ⟨sides.some, by rw [self]; exact sides.val, ?_, ?_, ?_⟩
  · rw [self]
    exact sides.left.frame fun k inside => others k fun same => notL (same ▸ inside)
  · rw [self]
    exact ⟨rfl, fresh.some, by rw [others val different, fresh.node], by rw [others val different, fresh.node]; rfl,
      by rw [others val different, fresh.node]; rfl, by rw [others val different, fresh.node]; rfl⟩
  · have perm : (n :: (l.ids ++ [val])).Perm (val :: n :: l.ids) :=
      ((List.perm_append_singleton val l.ids).cons n).trans (List.Perm.swap val n _)
    refine perm.nodup_iff.mpr (List.nodup_cons.mpr ⟨?_, List.nodup_cons.mpr ⟨notL, distinctL⟩⟩)
    intro inside
    exact fresh.outside (by simpa [NamedTree.ids] using inside)

theorem Sides.right_leaf (sides : Sides tree n w l .nil) (fresh : Fresh tree val v (.node n w l .nil)) :
    Makes tree (Avls.computeHeight (tree.set n fun node => { node with right := val }) n) n
      (val :: (NamedTree.node n w l .nil).ids) (NamedTree.balanceRight n w l (.node val v .nil .nil)) := by
  have made := (sides.right_fresh fresh).computeHeight
  rw [NamedTree.balanceRight_leaf]
  refine ⟨made.holds, fun j outside => ?_⟩
  have notN : j ≠ n := fun same => outside (by simp [NamedTree.ids, same])
  rw [made.same j (by simpa using notN), set_of_ne tree _ notN]

theorem Sides.left_leaf (sides : Sides tree n w .nil r) (fresh : Fresh tree val v (.node n w .nil r)) :
    Makes tree (Avls.computeHeight (tree.set n fun node => { node with left := val }) n) n
      (val :: (NamedTree.node n w .nil r).ids) (NamedTree.balanceLeft n w (.node val v .nil .nil) r) := by
  have made := (sides.mirror.right_leaf fresh.mirror).mirror
    ((NamedTree.ids_mirror (.node n w .nil r)).cons val).subset
  have same : (tree.mirror.set n fun node => { node with right := val }).mirror =
      tree.set n fun node => { node with left := val } := by
    unfold AvlTree.set AvlTree.mirror
    congr 1
    funext k
    by_cases here : k = n
    · subst here
      simp
    · simp [here]
  rw [computeHeight_mirror, same] at made
  rw [NamedTree.balanceLeft_eq]
  exact made

theorem Sides.right_inserted (sides : Sides tree n w l r)
    (fresh : Fresh tree val v (.node n w l r)) (made : Makes tree tree' (tree n).right (val :: r.ids) r')
    (perm : r'.ids.Perm (val :: r.ids)) : tree' n = tree n ∧ Sides tree' n w l r' := by
  obtain ⟨notL, notR, -, -, disjoint⟩ := sides.apart
  have outside : ∀ j ∈ val :: r.ids, j ≠ n ∧ j ∉ l.ids := by
    intro j inside
    rcases List.mem_cons.mp inside with rfl | inside
    · exact ⟨fun same => fresh.outside (by simp [NamedTree.ids, same]),
        fun inL => fresh.outside (by simp [NamedTree.ids, inL])⟩
    · exact ⟨fun same => notR (same ▸ inside), fun inL => disjoint j inL inside⟩
  have self := made.same n fun inside => (outside n inside).1 rfl
  refine ⟨self, sides.some, by rw [self, sides.val], ?_, by rw [self]; exact made.holds, ?_⟩
  · rw [self]
    exact sides.left.frame fun j inL => made.same j fun inside => (outside j inside).2 inL
  · have whole : (n :: (l.ids ++ r'.ids)).Perm (val :: n :: (l.ids ++ r.ids)) :=
      (((perm.append_left l.ids).trans List.perm_middle).cons n).trans (List.Perm.swap val n _)
    exact whole.nodup_iff.mpr (List.nodup_cons.mpr ⟨fresh.outside, sides.distinct⟩)

/-- What is left to do on the right side when the value has been inserted there. -/
theorem Sides.right_balanced (sides : Sides tree n w l r)
    (fresh : Fresh tree val v (.node n w l r)) (made : Makes tree tree' (tree n).right (val :: r.ids) r')
    (perm : r'.ids.Perm (val :: r.ids)) : Makes tree
      (if getHeight tree' (tree n).right - getHeight tree' (tree n).left = 2 then
        if getHeight tree' (tree' (tree n).right).right > getHeight tree' (tree' (tree n).right).left then
          Avls.simpleRotateRight tree' n else doubleRotateRight tree' n else Avls.computeHeight tree' n)
      n (val :: (NamedTree.node n w l r).ids) (NamedTree.balanceRight n w l r') := by
  have nonempty : r' ≠ .nil := by
    intro none
    rw [none] at perm
    exact absurd perm (List.not_perm_nil_cons _ _)
  obtain ⟨self, sides'⟩ := sides.right_inserted fresh made perm
  have balanced := sides'.balanceRight nonempty
  rw [self] at balanced
  refine balanced.after made fun j inside => ?_
  have members := perm.mem_iff (a := j)
  simp only [NamedTree.ids, List.mem_cons, List.mem_append] at inside members ⊢
  grind

theorem Sides.left_balanced {l' : NamedTree AvlNid AvlValue} (sides : Sides tree n w l r)
    (fresh : Fresh tree val v (.node n w l r)) (made : Makes tree tree' (tree n).left (val :: l.ids) l')
    (perm : l'.ids.Perm (val :: l.ids)) : Makes tree
      (if getHeight tree' (tree n).left - getHeight tree' (tree n).right = 2 then
        if getHeight tree' (tree' (tree n).left).left > getHeight tree' (tree' (tree n).left).right then
          Avls.simpleRotateLeft tree' n else doubleRotateLeft tree' n else Avls.computeHeight tree' n)
      n (val :: (NamedTree.node n w l r).ids) (NamedTree.balanceLeft n w l' r) := by
  have made' := made.mirror ((NamedTree.ids_mirror l).symm.cons val).subset
  have perm' := (NamedTree.ids_mirror l').trans (perm.trans ((NamedTree.ids_mirror l).symm.cons val))
  have balanced := (sides.mirror.right_balanced fresh.mirror made' perm').mirror
    ((NamedTree.ids_mirror (.node n w l r)).cons val).subset
  rw [apply_ite AvlTree.mirror, apply_ite AvlTree.mirror, computeHeight_mirror] at balanced
  rw [NamedTree.balanceLeft_eq, simpleRotateLeft_eq, doubleRotateLeft_eq]
  exact balanced

/-- An insertion makes of the tree in the array the one that the value is inserted in; where there is an equal one
it finds it. -/
theorem insert_spec (cmp : AvlValue → AvlValue → Int) {fuel : Nat}
    (holds : Holds tree n t) (nonempty : t ≠ .nil) (distinct : t.ids.Nodup) (fresh : Fresh tree val v t)
    (enough : t.height ≤ fuel) :
    match NamedTree.insert cmp val v t with
    | none => ∃ res ∈ t.ids, insert cmp val fuel n tree = .ok (tree, res)
    | some t' => ∃ tree', insert cmp val fuel n tree = .ok (tree', val) ∧ Makes tree tree' n (val :: t.ids) t' := by
  induction fuel generalizing n t with
  | zero =>
    cases t with
    | nil => exact absurd rfl nonempty
    | node id w l r => simp [NamedTree.height] at enough
  | succ fuel ih =>
    cases t with
    | nil => exact absurd rfl nonempty
    | node id w l r =>
      obtain ⟨rfl, sides⟩ := holds.sides distinct
      obtain ⟨notL, notR, distinctL, distinctR, disjoint⟩ := sides.apart
      have isVal : (tree val).val = v := by rw [fresh.node]
      simp only [NamedTree.height] at enough
      unfold NamedTree.insert insert
      dsimp only
      rw [isVal, sides.val]
      by_cases equal : cmp v w = 0
      · rw [if_pos equal, if_pos equal]
        exact ⟨n, List.mem_cons_self, rfl⟩
      rw [if_neg equal, if_neg equal]
      by_cases less : cmp v w < 0
      · rw [if_pos less, if_pos less]
        cases l with
        | nil =>
          have none : (tree n).left = avlNil := sides.left
          rw [if_pos none]
          exact ⟨_, rfl, sides.left_leaf fresh⟩
        | node k x a b =>
          have some : (tree n).left ≠ avlNil := by
            obtain ⟨isK, some, -⟩ := sides.left
            rwa [isK]
          have inner : Fresh tree val v (.node k x a b) :=
            ⟨fresh.some, fresh.node, fun inside => fresh.outside (List.mem_cons_of_mem n (List.mem_append_left _ inside))⟩
          have found := ih sides.left (by simp) distinctL inner (by omega)
          rw [if_neg some]
          cases result : NamedTree.insert cmp val v (.node k x a b) with
          | none =>
            rw [result] at found
            obtain ⟨res, inside, run⟩ := found
            have other : res ≠ val := fun same => inner.outside (same ▸ inside)
            refine ⟨res, List.mem_cons_of_mem n (List.mem_append_left _ inside), ?_⟩
            rw [run]
            exact if_pos other
          | some l' =>
            rw [result] at found
            obtain ⟨tree', run, made⟩ := found
            have perm := NamedTree.ids_insert cmp val v result
            refine ⟨_, ?_, sides.left_balanced fresh made perm⟩
            rw [run]
            show (if val ≠ val then _ else _) = _
            rw [if_neg (not_not.mpr rfl)]
            split
            · split <;> rfl
            · rfl
      rw [if_neg less, if_neg less]
      cases r with
      | nil =>
        have none : (tree n).right = avlNil := sides.right
        rw [if_pos none]
        exact ⟨_, rfl, sides.right_leaf fresh⟩
      | node k x a b =>
        have some : (tree n).right ≠ avlNil := by
          obtain ⟨isK, some, -⟩ := sides.right
          rwa [isK]
        have inner : Fresh tree val v (.node k x a b) :=
          ⟨fresh.some, fresh.node, fun inside => fresh.outside (List.mem_cons_of_mem n (List.mem_append_right _ inside))⟩
        have found := ih sides.right (by simp) distinctR inner (by omega)
        rw [if_neg some]
        cases result : NamedTree.insert cmp val v (.node k x a b) with
        | none =>
          rw [result] at found
          obtain ⟨res, inside, run⟩ := found
          have other : res ≠ val := fun same => inner.outside (same ▸ inside)
          refine ⟨res, List.mem_cons_of_mem n (List.mem_append_right _ inside), ?_⟩
          rw [run]
          exact if_pos other
        | some r' =>
          rw [result] at found
          obtain ⟨tree', run, made⟩ := found
          have perm := NamedTree.ids_insert cmp val v result
          refine ⟨_, ?_, sides.right_balanced fresh made perm⟩
          rw [run]
          show (if val ≠ val then _ else _) = _
          rw [if_neg (not_not.mpr rfl)]
          split
          · split <;> rfl
          · rfl

theorem checkAvl_spec {fuel : Nat} (holds : Holds tree n t) (balanced : t.Balanced) (enough : t.height < fuel) :
    checkAvl tree fuel n = .ok () := by
  induction t generalizing n fuel with
  | nil =>
    obtain ⟨fuel, rfl⟩ := fuel_succ enough
    have none : n = avlNil := holds
    unfold checkAvl
    rw [if_pos none]
    rfl
  | node id v l r ihl ihr =>
    obtain ⟨fuel, rfl⟩ := fuel_succ enough
    have height := holds.height
    obtain ⟨rfl, some, val, left, right, -⟩ := holds
    obtain ⟨balancedL, balancedR, above, below⟩ := balanced
    have heightL := left.height
    have heightR := right.height
    simp only [NamedTree.height] at enough height
    unfold checkAvl
    rw [if_neg some, height]
    have isNil : ∀ {k : AvlNid} {t : NamedTree AvlNid AvlValue}, Holds tree k t → (k = avlNil ↔ t = .nil) := by
      intro k t holds
      cases t with
      | nil => exact iff_of_true holds rfl
      | node j w a b =>
        obtain ⟨rfl, some, -⟩ := holds
        exact iff_of_false some (by simp)
    have emptyL : (tree n).left = avlNil ↔ l.height = 0 := by
      rw [isNil left]
      cases l <;> simp [NamedTree.height]
    have emptyR : (tree n).right = avlNil ↔ r.height = 0 := by
      rw [isNil right]
      cases r <;> simp [NamedTree.height]
    by_cases noL : (tree n).left = avlNil
    · have zeroL := emptyL.mp noL
      by_cases noR : (tree n).right = avlNil
      · have zeroR := emptyR.mp noR
        rw [if_pos ⟨noL, noR⟩, if_neg (not_not.mpr (by rw [zeroL, zeroR]; rfl))]
        rfl
      have heights : ¬ (((max l.height r.height + 1 : Nat) : Int) ≠ getHeight tree (tree n).right + 1 ∨
          ((max l.height r.height + 1 : Nat) : Int) > 2) := by
        rw [heightR, zeroL]
        omega
      rw [if_neg (fun both => noR both.2), if_pos noL, ihr right balancedR (by omega)]
      show (if _ then _ else _) = _
      rw [if_neg heights]
      rfl
    by_cases noR : (tree n).right = avlNil
    · have zeroR := emptyR.mp noR
      have heights : ¬ (((max l.height r.height + 1 : Nat) : Int) ≠ getHeight tree (tree n).left + 1 ∨
          ((max l.height r.height + 1 : Nat) : Int) > 2) := by
        rw [heightL, zeroR]
        omega
      rw [if_neg (fun both => noL both.1), if_neg noL, if_pos noR, ihl left balancedL (by omega)]
      show (if _ then _ else _) = _
      rw [if_neg heights]
      rfl
    have whole : ¬ max (getHeight tree (tree n).left) (getHeight tree (tree n).right) + 1 ≠
        ((max l.height r.height + 1 : Nat) : Int) := by
      rw [heightL, heightR]
      omega
    have even : ¬ (getHeight tree (tree n).right - getHeight tree (tree n).left > 1 ∨
        getHeight tree (tree n).right - getHeight tree (tree n).left < -1) := by
      rw [heightL, heightR]
      omega
    rw [if_neg (fun both => noL both.1), if_neg noL, if_neg noR, ihl left balancedL (by omega)]
    show (checkAvl tree fuel (tree n).right >>= _) = _
    rw [ihr right balancedR (by omega)]
    show (if _ then _ else _) = _
    rw [if_neg whole]
    show (if _ then _ else _) = _
    rw [if_neg even]
    rfl

theorem getNode_spec (cmp : AvlValue → AvlValue → Int) {last : AvlNid}
    (holds : Holds tree avlRoot t) (nonempty : t ≠ .nil) (distinct : t.ids.Nodup) (balanced : t.Balanced)
    (fresh : Fresh tree last v t) (size : t.ids.length < last) :
    match NamedTree.insert cmp last v t with
    | none => ∃ res ≠ last, getNode cmp tree last last = .ok (tree, res)
    | some t' => ∃ tree', getNode cmp tree last last = .ok (tree', last) ∧ Makes tree tree' avlRoot (last :: t.ids) t' := by
  have depth := NamedTree.height_le_length t
  have enough : t.height ≤ last := by omega
  have inserted := insert_spec cmp holds nonempty distinct fresh enough
  cases result : NamedTree.insert cmp last v t with
  | none =>
    rw [result] at inserted
    obtain ⟨res, inside, run⟩ := inserted
    refine ⟨res, fun same => fresh.outside (same ▸ inside), ?_⟩
    unfold getNode
    rw [if_neg (not_not.mpr rfl)]
    show (insert cmp last last avlRoot tree >>= _) = _
    rw [run]
    show (checkAvl tree (last + 1) avlRoot >>= _) = _
    rw [checkAvl_spec holds balanced (by omega)]
    rfl
  | some t' =>
    rw [result] at inserted
    obtain ⟨tree', run, made⟩ := inserted
    have grows := NamedTree.insert_grows cmp last v balanced result
    have higher : t'.height < last + 1 := by
      rcases grows.height with same | grown
      · omega
      · omega
    refine ⟨tree', ?_, made⟩
    unfold getNode
    rw [if_neg (not_not.mpr rfl)]
    show (insert cmp last last avlRoot tree >>= _) = _
    rw [run]
    show (checkAvl tree' (last + 1) avlRoot >>= _) = _
    rw [checkAvl_spec made.holds grows.balanced higher]
    rfl

theorem getNode_first (cmp : AvlValue → AvlValue → Int) (node : tree avlRoot = ⟨v, avlNil, avlNil, 1⟩)
    (equal : cmp v v = 0) :
    getNode cmp tree avlRoot avlRoot = .ok (tree, avlRoot) ∧ Holds tree avlRoot (.node avlRoot v .nil .nil) := by
  have holds : Holds tree avlRoot (.node avlRoot v .nil .nil) := by
    refine ⟨rfl, by decide, by rw [node], by rw [node]; rfl, by rw [node]; rfl, by rw [node]; rfl⟩
  have balanced : (NamedTree.node avlRoot v .nil .nil : NamedTree AvlNid AvlValue).Balanced :=
    ⟨trivial, trivial, Nat.zero_le _, Nat.zero_le _⟩
  have found : insert cmp avlRoot 1 avlRoot tree = .ok (tree, avlRoot) := by
    unfold insert
    dsimp only
    rw [node, if_pos equal]
  refine ⟨?_, holds⟩
  unfold getNode
  rw [if_neg (not_not.mpr rfl)]
  show (insert cmp avlRoot 1 avlRoot tree >>= _) = _
  rw [found]
  show (checkAvl tree 2 avlRoot >>= _) = _
  rw [checkAvl_spec holds balanced (Nat.lt_succ_self 1)]
  rfl

end Ghdl.Avls
