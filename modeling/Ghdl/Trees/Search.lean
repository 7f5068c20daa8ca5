import Ghdl.Trees.Balanced

/-!
# Search in ordered trees

A search compares its value with that of a node and goes down on one side. In an ordered tree it finds a node with an
equal value whenever there is one.
-/

namespace Trees.NamedTree

variable {ι α κ : Type*}

/-- The node with this name has this value. -/
def At (i : ι) (a : α) : NamedTree ι α → Prop
  | nil => False
  | node n v l r => i = n ∧ a = v ∨ At i a l ∨ At i a r

/-- The node with an equal value on the way down. -/
def find (cmp : α → α → Int) (val : α) : NamedTree ι α → Option ι
  | nil => none
  | node n v l r => if cmp val v = 0 then some n else if cmp val v < 0 then find cmp val l else find cmp val r

theorem At.val_mem {i : ι} {a : α} {t : NamedTree ι α} (holds : At i a t) : a ∈ t.vals := by
  induction t with
  | nil => exact holds.elim
  | node n v l r ihl ihr =>
    rcases holds with ⟨-, same⟩ | left | right
    · simp [vals, same]
    · simp [vals, ihl left]
    · simp [vals, ihr right]

theorem At.id_mem {i : ι} {a : α} {t : NamedTree ι α} (holds : At i a t) : i ∈ t.ids := by
  induction t with
  | nil => exact holds.elim
  | node n v l r ihl ihr =>
    rcases holds with ⟨same, -⟩ | left | right
    · simp [ids, same]
    · simp [ids, ihl left]
    · simp [ids, ihr right]

variable [LinearOrder κ] {cmp : α → α → Int} {key : α → κ}

theorem find_spec (compares : Compares cmp key) (val : α) {t : NamedTree ι α} (ordered : Ordered key t.vals) :
    match find cmp val t with
    | some i => ∃ a, At i a t ∧ key a = key val
    | none => ∀ a ∈ t.vals, key a ≠ key val := by
  induction t with
  | nil =>
    intro a inside
    exact absurd inside List.not_mem_nil
  | node n v l r ihl ihr =>
    obtain ⟨orderedL, orderedVR, across⟩ := List.pairwise_append.mp ordered
    obtain ⟨beyond, orderedR⟩ := List.pairwise_cons.mp orderedVR
    have below : ∀ a ∈ l.vals, key a < key v := fun a inside => across a inside v List.mem_cons_self
    have ihl := ihl orderedL
    have ihr := ihr orderedR
    unfold find
    by_cases equal : cmp val v = 0
    · rw [if_pos equal]
      exact ⟨v, Or.inl ⟨rfl, rfl⟩, ((compares.eq val v).mp equal).symm⟩
    have different : key val ≠ key v := fun same => equal ((compares.eq val v).mpr same)
    rw [if_neg equal]
    by_cases less : cmp val v < 0
    · have under := (compares.lt val v).mp less
      rw [if_pos less]
      cases result : find cmp val l with
      | some i =>
        rw [result] at ihl
        obtain ⟨a, inside, same⟩ := ihl
        exact ⟨a, Or.inr (Or.inl inside), same⟩
      | none =>
        rw [result] at ihl
        intro a inside same
        rcases List.mem_append.mp inside with inL | inVR
        · exact ihl a inL same
        · rcases List.mem_cons.mp inVR with rfl | inR
          · exact different same.symm
          · exact absurd (lt_trans under (beyond a inR)) (by rw [same]; exact lt_irrefl _)
    have above : key v < key val := by
      rcases lt_trichotomy (key v) (key val) with above | same | under
      · exact above
      · exact absurd same.symm different
      · exact absurd ((compares.lt val v).mpr under) less
    rw [if_neg less]
    cases result : find cmp val r with
    | some i =>
      rw [result] at ihr
      obtain ⟨a, inside, same⟩ := ihr
      exact ⟨a, Or.inr (Or.inr inside), same⟩
    | none =>
      rw [result] at ihr
      intro a inside same
      rcases List.mem_append.mp inside with inL | inVR
      · exact absurd (lt_trans (below a inL) above) (by rw [same]; exact lt_irrefl _)
      · rcases List.mem_cons.mp inVR with rfl | inR
        · exact different same.symm
        · exact ihr a inR same

end Trees.NamedTree
