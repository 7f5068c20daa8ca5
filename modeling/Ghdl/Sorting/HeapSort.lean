import Mathlib
import Ghdl.Sorting.Merge

/-!
# Heap sort

The array has its elements from index 1 on, and is changed only by exchanging elements. A heap has no parent that is
less than one of its children, so that its first element is a greatest one.
-/

namespace Sorting

variable {α : Type*}

/-- Exchanges the elements at two positions. -/
def exchange (arr : Nat → α) (i j : Nat) : Nat → α := arr ∘ Equiv.swap i j

/-- The loop of `bubbleDown`, for so many rounds at most. -/
def bubble (lt : α → α → Bool) (n : Nat) : Nat → Nat → (Nat → α) → Nat → α
  | 0, _, arr => arr
  | rounds + 1, parent, arr =>
    let child := 2 * parent
    let child := if child < n ∧ lt (arr child) (arr (child + 1)) then child + 1 else child
    if n < child then arr
    else if lt (arr parent) (arr child) then bubble lt n rounds child (exchange arr parent child)
    else arr

/-- Bubbles down the element at a position of a heap of length `n`. -/
def bubbleDown (lt : α → α → Bool) (i n : Nat) (arr : Nat → α) : Nat → α := bubble lt n n i arr

/-- Bubbles down the elements from a position down to the first one. -/
def heapify (lt : α → α → Bool) (n : Nat) : Nat → (Nat → α) → Nat → α
  | 0, arr => arr
  | i + 1, arr => heapify lt n i (bubbleDown lt (i + 1) n arr)

/-- Takes the greatest elements out of a heap of so many elements, one after the other. -/
def extract (lt : α → α → Bool) : Nat → (Nat → α) → Nat → α
  | 0, arr => arr
  | 1, arr => arr
  | i + 2, arr => extract lt (i + 1) (bubbleDown lt 1 (i + 1) (exchange arr 1 (i + 2)))

/-- Heap sort of the first `n` elements. -/
def heapSort (lt : α → α → Bool) (n : Nat) (arr : Nat → α) : Nat → α := extract lt n (heapify lt n (n / 2) arr)

variable {lt : α → α → Bool} {arr arr' arr'' : Nat → α} {n lo hi i j p : Nat}

theorem exchange_left (arr : Nat → α) (i j : Nat) : exchange arr i j i = arr j :=
  congrArg arr (Equiv.swap_apply_left i j)

theorem exchange_right (arr : Nat → α) (i j : Nat) : exchange arr i j j = arr i :=
  congrArg arr (Equiv.swap_apply_right i j)

theorem exchange_other {k : Nat} (arr : Nat → α) (left : k ≠ i) (right : k ≠ j) : exchange arr i j k = arr k :=
  congrArg arr (Equiv.swap_apply_of_ne_of_ne left right)

/-- The elements between two positions are rearranged. -/
def Rearranged (arr arr' : Nat → α) (lo hi : Nat) : Prop :=
  ∃ σ : Equiv.Perm Nat, (∀ i, i < lo ∨ hi < i → σ i = i) ∧ arr' = arr ∘ σ

namespace Rearranged

theorem refl (arr : Nat → α) (lo hi : Nat) : Rearranged arr arr lo hi := ⟨Equiv.refl Nat, fun _ _ => rfl, rfl⟩

theorem trans (first : Rearranged arr arr' lo hi) (second : Rearranged arr' arr'' lo hi) :
    Rearranged arr arr'' lo hi := by
  obtain ⟨σ, fixed, rfl⟩ := first
  obtain ⟨τ, fixed', rfl⟩ := second
  refine ⟨τ.trans σ, fun i outside => ?_, rfl⟩
  rw [Equiv.trans_apply, fixed' i outside, fixed i outside]

theorem mono {hi' : Nat} (rearranged : Rearranged arr arr' lo hi) (le : hi ≤ hi') : Rearranged arr arr' lo hi' := by
  obtain ⟨σ, fixed, isRearranged⟩ := rearranged
  exact ⟨σ, fun i outside => fixed i (by omega), isRearranged⟩

theorem exchange (arr : Nat → α) (left : lo ≤ i ∧ i ≤ hi) (right : lo ≤ j ∧ j ≤ hi) :
    Rearranged arr (exchange arr i j) lo hi :=
  ⟨Equiv.swap i j, fun _ outside => Equiv.swap_apply_of_ne_of_ne (by omega) (by omega), rfl⟩

theorem outside (rearranged : Rearranged arr arr' lo hi) (outside : i < lo ∨ hi < i) : arr' i = arr i := by
  obtain ⟨σ, fixed, rfl⟩ := rearranged
  exact congrArg arr (fixed i outside)

/-- A permutation that fixes what is outside keeps what is inside. -/
theorem maps {σ : Equiv.Perm Nat} (fixed : ∀ i, i < lo ∨ hi < i → σ i = i) (inside : lo ≤ i ∧ i ≤ hi) :
    lo ≤ σ i ∧ σ i ≤ hi := by
  by_cases outside : σ i < lo ∨ hi < σ i
  · have same := σ.injective (fixed (σ i) outside)
    omega
  · omega

theorem inside (rearranged : Rearranged arr arr' lo hi) (inside : lo ≤ i ∧ i ≤ hi) :
    ∃ j, (lo ≤ j ∧ j ≤ hi) ∧ arr' i = arr j := by
  obtain ⟨σ, fixed, rfl⟩ := rearranged
  exact ⟨σ i, maps fixed inside, rfl⟩

/-- The elements are the same ones. -/
theorem perm (rearranged : Rearranged arr arr' 1 n) : ((List.range' 1 n).map arr').Perm ((List.range' 1 n).map arr) := by
  obtain ⟨σ, fixed, rfl⟩ := rearranged
  rw [← List.map_map]
  apply List.Perm.map
  have distinct : (List.range' 1 n).Nodup := List.nodup_range'
  rw [List.perm_ext_iff_of_nodup (distinct.map σ.injective) distinct]
  intro k
  rw [List.mem_map]
  constructor
  · intro ⟨i, inside, same⟩
    have inside := List.mem_range'_1.mp inside
    have mapped := maps fixed (i := i) (by omega)
    exact List.mem_range'_1.mpr (by omega)
  · intro inside
    have inside := List.mem_range'_1.mp inside
    have fixedInverse : ∀ i, i < 1 ∨ n < i → σ.symm i = i := fun i outside => by
      rw [Equiv.symm_apply_eq, fixed i outside]
    have mapped := maps fixedInverse (i := k) (by omega)
    exact ⟨σ.symm k, List.mem_range'_1.mpr (by omega), σ.apply_symm_apply k⟩

end Rearranged

/-- A position is a child of another one. -/
def Child (i c : Nat) : Prop := c = 2 * i ∨ c = 2 * i + 1

/-- The element is not less than its children. -/
def Above (lt : α → α → Bool) (arr : Nat → α) (n i : Nat) : Prop := ∀ c, Child i c → c ≤ n → lt (arr i) (arr c) = false

/-- A heap, from a position on. -/
def HeapFrom (lt : α → α → Bool) (arr : Nat → α) (lo n : Nat) : Prop := ∀ i, lo ≤ i → Above lt arr n i

/-- A heap but for the element at a position, which may be less than its children. -/
structure HeapExcept (lt : α → α → Bool) (arr : Nat → α) (lo n p : Nat) : Prop where
  except : ∀ i, lo ≤ i → i ≠ p → Above lt arr n i
  /-- The children are not less than the parent of the position. -/
  grand : ∀ i, lo ≤ i → Child i p → ∀ c, Child p c → c ≤ n → lt (arr i) (arr c) = false

/-- The child with which the loop goes on, when there is one. -/
def greaterChild (lt : α → α → Bool) (arr : Nat → α) (n p : Nat) : Nat :=
  if 2 * p < n ∧ lt (arr (2 * p)) (arr (2 * p + 1)) then 2 * p + 1 else 2 * p

theorem greaterChild_child (lt : α → α → Bool) (arr : Nat → α) (n p : Nat) : Child p (greaterChild lt arr n p) := by
  unfold greaterChild
  split
  · exact Or.inr rfl
  · exact Or.inl rfl

theorem lt_of_lt_greaterChild (beyond : n < greaterChild lt arr n p) : n < 2 * p := by
  unfold greaterChild at beyond
  split at beyond
  · omega
  · exact beyond

theorem greaterChild_max (comparison : Comparison lt) {c : Nat} (child : Child p c) (inside : c ≤ n) :
    lt (arr (greaterChild lt arr n p)) (arr c) = false := by
  unfold greaterChild
  split
  · next greater =>
    rcases child with rfl | rfl
    · exact comparison.asymm greater.2
    · exact comparison.irrefl _
  · next notGreater =>
    rcases child with rfl | rfl
    · exact comparison.irrefl _
    · have less : ¬ lt (arr (2 * p)) (arr (2 * p + 1)) = true := fun less => notGreater ⟨by omega, less⟩
      exact Bool.eq_false_iff.mpr less

theorem bubble_succ (lt : α → α → Bool) (n rounds p : Nat) (arr : Nat → α) : bubble lt n (rounds + 1) p arr =
    if n < greaterChild lt arr n p then arr
    else if lt (arr p) (arr (greaterChild lt arr n p)) then
      bubble lt n rounds (greaterChild lt arr n p) (exchange arr p (greaterChild lt arr n p))
    else arr := rfl

theorem HeapExcept.exchange (comparison : Comparison lt) (heap : HeapExcept lt arr lo n p) (lower : lo ≤ p) (pos : 0 < p)
    (inside : greaterChild lt arr n p ≤ n) (less : lt (arr p) (arr (greaterChild lt arr n p)) = true) :
    HeapExcept lt (exchange arr p (greaterChild lt arr n p)) lo n (greaterChild lt arr n p) := by
  have child := greaterChild_child lt arr n p
  have max : ∀ d, Child p d → d ≤ n → lt (arr (greaterChild lt arr n p)) (arr d) = false :=
    fun d isChild upper => greaterChild_max comparison isChild upper
  generalize greaterChild lt arr n p = c at child inside less max
  unfold Child at child
  constructor
  · intro i lower' different d isChild upper
    by_cases isParent : i = p
    · rw [isParent, exchange_left]
      by_cases same : d = c
      · rw [same, exchange_right]
        exact comparison.asymm less
      · unfold Child at isChild
        rw [exchange_other arr (by omega) same]
        exact max d (isParent ▸ isChild) upper
    rw [exchange_other arr isParent different]
    by_cases isHole : d = p
    · rw [isHole, exchange_left]
      exact heap.grand i lower' (isHole ▸ isChild) c child inside
    · unfold Child at isChild
      rw [exchange_other arr isHole (by omega)]
      exact heap.except i lower' isParent d isChild upper
  · intro i lower' isParent d isChild upper
    unfold Child at isParent isChild
    have isHole : i = p := by omega
    rw [isHole, exchange_left, exchange_other arr (by omega) (by omega)]
    exact heap.except c (by omega) (by omega) d isChild upper

theorem bubble_heap (comparison : Comparison lt) {rounds : Nat} (heap : HeapExcept lt arr lo n p) (lower : lo ≤ p)
    (pos : 0 < p) (enough : n < p + rounds) : HeapFrom lt (bubble lt n rounds p arr) lo n := by
  induction rounds generalizing arr p with
  | zero =>
    intro i lower' c isChild upper
    by_cases isHole : i = p
    · unfold Child at isChild
      omega
    · exact heap.except i lower' isHole c isChild upper
  | succ rounds ih =>
    rw [bubble_succ]
    have child := greaterChild_child lt arr n p
    unfold Child at child
    split
    · next beyond =>
      have none := lt_of_lt_greaterChild beyond
      intro i lower' c isChild upper
      by_cases isHole : i = p
      · unfold Child at isChild
        omega
      · exact heap.except i lower' isHole c isChild upper
    · next inside =>
      split
      · next less => exact ih (heap.exchange comparison lower pos (by omega) less) (by omega) (by omega) (by omega)
      · next notLess =>
        intro i lower' c isChild upper
        by_cases isHole : i = p
        · rw [isHole] at isChild ⊢
          exact comparison.not_lt_trans (greaterChild_max comparison isChild upper) (Bool.eq_false_iff.mpr notLess)
        · exact heap.except i lower' isHole c isChild upper

theorem bubble_rearranged (lt : α → α → Bool) (arr : Nat → α) (rounds : Nat) (pos : 0 < p) :
    Rearranged arr (bubble lt n rounds p arr) 1 n := by
  induction rounds generalizing arr p with
  | zero => exact Rearranged.refl arr 1 n
  | succ rounds ih =>
    rw [bubble_succ]
    have child := greaterChild_child lt arr n p
    unfold Child at child
    split
    · exact Rearranged.refl arr 1 n
    · split
      · exact (Rearranged.exchange arr (by omega) (by omega)).trans (ih _ (by omega))
      · exact Rearranged.refl arr 1 n

theorem bubbleDown_rearranged (lt : α → α → Bool) (arr : Nat → α) (pos : 0 < i) :
    Rearranged arr (bubbleDown lt i n arr) 1 n := bubble_rearranged lt arr n pos

theorem HeapFrom.first (comparison : Comparison lt) (heap : HeapFrom lt arr 1 n) (pos : 0 < i) (inside : i ≤ n) :
    lt (arr 1) (arr i) = false := by
  induction i using Nat.strongRecOn with
  | ind i ih =>
    by_cases isFirst : i = 1
    · rw [isFirst]
      exact comparison.irrefl _
    have parent := ih (i / 2) (by omega) (by omega) (by omega)
    have child : Child (i / 2) i := by
      unfold Child
      omega
    exact comparison.not_lt_trans (heap (i / 2) (by omega) i child inside) parent

theorem heapify_heap (comparison : Comparison lt) (heap : HeapFrom lt arr (i + 1) n) :
    HeapFrom lt (heapify lt n i arr) 1 n := by
  induction i generalizing arr with
  | zero => exact heap
  | succ i ih =>
    apply ih
    apply bubble_heap comparison _ (Nat.le_refl _) (Nat.succ_pos i) (by omega)
    constructor
    · intro k lower different
      exact heap k (by omega)
    · intro k lower child
      unfold Child at child
      omega

theorem heapify_rearranged (lt : α → α → Bool) (arr : Nat → α) (n i : Nat) :
    Rearranged arr (heapify lt n i arr) 1 n := by
  induction i generalizing arr with
  | zero => exact Rearranged.refl arr 1 n
  | succ i ih => exact (bubbleDown_rearranged lt arr (Nat.succ_pos i)).trans (ih _)

/-- The first elements are a heap, the other ones are sorted and not less than these. -/
structure Extracting (lt : α → α → Bool) (arr : Nat → α) (i n : Nat) : Prop where
  heap : HeapFrom lt arr 1 i
  parts : ∀ a b, 1 ≤ a → a ≤ i → i < b → b ≤ n → lt (arr b) (arr a) = false
  sorted : ∀ a b, i < a → a < b → b ≤ n → lt (arr b) (arr a) = false

theorem Extracting.next (comparison : Comparison lt) (extracting : Extracting lt arr (i + 2) n) :
    Extracting lt (bubbleDown lt 1 (i + 1) (exchange arr 1 (i + 2))) (i + 1) n := by
  have rearranged := bubbleDown_rearranged lt (exchange arr 1 (i + 2)) (n := i + 1) Nat.one_pos
  have outside : ∀ b, i + 1 < b → bubbleDown lt 1 (i + 1) (exchange arr 1 (i + 2)) b = exchange arr 1 (i + 2) b :=
    fun b above => rearranged.outside (Or.inr above)
  have inside : ∀ a, 1 ≤ a → a ≤ i + 1 → ∃ a', (1 ≤ a' ∧ a' ≤ i + 2) ∧
      bubbleDown lt 1 (i + 1) (exchange arr 1 (i + 2)) a = arr a' := by
    intro a lower upper
    have swapped : Rearranged arr (exchange arr 1 (i + 2)) 1 (i + 2) := Rearranged.exchange arr (by omega) (by omega)
    have whole := swapped.trans (rearranged.mono (Nat.le_succ _))
    exact whole.inside (by omega)
  constructor
  · apply bubble_heap comparison _ (Nat.le_refl 1) Nat.one_pos (by omega)
    constructor
    · intro k lower different c child upper
      have isChild := child
      unfold Child at isChild
      rw [exchange_other arr different (by omega), exchange_other arr (by omega) (by omega)]
      exact extracting.heap k lower c child (by omega)
    · intro k lower child
      unfold Child at child
      omega
  · intro a b lower upper above upper'
    obtain ⟨a', inside', isElement⟩ := inside a lower upper
    rw [isElement, outside b above]
    by_cases isLast : b = i + 2
    · rw [isLast, exchange_right]
      exact extracting.heap.first comparison (by omega) inside'.2
    · rw [exchange_other arr (by omega) isLast]
      exact extracting.parts a' b inside'.1 inside'.2 (by omega) upper'
  · intro a b above less upper
    rw [outside a above, outside b (by omega), exchange_other arr (by omega) (by omega)]
    by_cases isLast : a = i + 2
    · rw [isLast, exchange_right]
      exact extracting.parts 1 b (Nat.le_refl 1) (by omega) (by omega) upper
    · rw [exchange_other arr (by omega) isLast]
      exact extracting.sorted a b (by omega) less upper

theorem extract_sorted (comparison : Comparison lt) (extracting : Extracting lt arr i n) (pos : 1 ≤ j) {k : Nat}
    (less : j < k) (inside : k ≤ n) : lt (extract lt i arr k) (extract lt i arr j) = false := by
  induction i using Nat.strongRecOn generalizing arr with
  | ind i ih =>
    match i, ih, extracting with
    | 0, _, extracting => exact extracting.sorted j k pos less inside
    | 1, _, extracting =>
      by_cases isFirst : j = 1
      · exact extracting.parts j k pos (by omega) (by omega) inside
      · exact extracting.sorted j k (by omega) less inside
    | i + 2, ih, extracting => exact ih (i + 1) (by omega) (extracting.next comparison)

theorem extract_rearranged (lt : α → α → Bool) (arr : Nat → α) (inside : i ≤ n) :
    Rearranged arr (extract lt i arr) 1 n := by
  induction i using Nat.strongRecOn generalizing arr with
  | ind i ih =>
    match i, ih, inside with
    | 0, _, _ => exact Rearranged.refl arr 1 n
    | 1, _, _ => exact Rearranged.refl arr 1 n
    | i + 2, ih, inside =>
      have swapped : Rearranged arr (exchange arr 1 (i + 2)) 1 n := Rearranged.exchange arr (by omega) (by omega)
      have bubbled : Rearranged (exchange arr 1 (i + 2)) (bubbleDown lt 1 (i + 1) (exchange arr 1 (i + 2))) 1 n :=
        (bubbleDown_rearranged lt _ Nat.one_pos).mono (by omega)
      exact (swapped.trans bubbled).trans (ih (i + 1) (by omega) _ (by omega))

theorem heapSort_rearranged (lt : α → α → Bool) (n : Nat) (arr : Nat → α) : Rearranged arr (heapSort lt n arr) 1 n :=
  (heapify_rearranged lt arr n (n / 2)).trans (extract_rearranged lt _ (Nat.le_refl n))

theorem heapSort_sorted (comparison : Comparison lt) (arr : Nat → α) (pos : 1 ≤ i) (less : i < j) (inside : j ≤ n) :
    lt (heapSort lt n arr j) (heapSort lt n arr i) = false := by
  have leaves : HeapFrom lt arr (n / 2 + 1) n := fun k lower c child upper => by
    unfold Child at child
    omega
  apply extract_sorted comparison _ pos less inside
  constructor
  · exact heapify_heap comparison leaves
  · intro a b _ _ above upper
    omega
  · intro a b above before upper
    omega

/-- The elements of a list, which is put in an array, after heap sort. -/
def heapSortList (lt : α → α → Bool) : List α → List α
  | [] => []
  | x :: xs => (List.range' 1 (xs.length + 1)).map (heapSort lt (xs.length + 1) fun i => (x :: xs).getD (i - 1) x)

theorem map_getD_range' (x : α) (xs : List α) : (List.range' 1 xs.length).map (fun i => xs.getD (i - 1) x) = xs := by
  apply List.ext_getElem
  · simp
  · intro k inside inside'
    simp [List.getElem_range', inside']

theorem heapSortList_perm (lt : α → α → Bool) (xs : List α) : (heapSortList lt xs).Perm xs := by
  cases xs with
  | nil => exact List.Perm.refl []
  | cons x xs =>
    have perm := (heapSort_rearranged lt (xs.length + 1) fun i => (x :: xs).getD (i - 1) x).perm
    have isList := map_getD_range' x (x :: xs)
    rw [List.length_cons] at isList
    rw [isList] at perm
    exact perm

theorem heapSortList_sorted (comparison : Comparison lt) (xs : List α) : Sorted lt (heapSortList lt xs) := by
  cases xs with
  | nil => exact List.Pairwise.nil
  | cons x xs =>
    unfold heapSortList Sorted
    rw [List.pairwise_map]
    have increasing : (List.range' 1 (xs.length + 1)).Pairwise fun i j => i < j := List.pairwise_lt_range'
    refine List.Pairwise.imp_of_mem (fun {i j} inside inside' less => ?_) increasing
    have lower := List.mem_range'_1.mp inside
    have upper := List.mem_range'_1.mp inside'
    exact heapSort_sorted comparison _ lower.1 less (by omega)

end Sorting
