import Ghdl.Sorting.HeapSort
import Ghdl.System.Fallible

/-!
# Heap sort with a comparison that may fail

Every element is compared while the heap is made, but for a single one. So heap sort returns exactly when all elements
can be compared, and then it returns what heap sort with the values of the comparisons returns.
-/

namespace Sorting

open Fallible

variable {α ε : Type}

/-- The child with which the loop goes on. -/
def tryGreaterChild (lt : α → α → Except ε Bool) (arr : Nat → α) (n p : Nat) : Except ε Nat :=
  if 2 * p < n then do
    let second ← lt (arr (2 * p)) (arr (2 * p + 1))
    return if second then 2 * p + 1 else 2 * p
  else .ok (2 * p)

/-- The loop of `tryBubbleDown`, for so many rounds at most. -/
def tryBubble (lt : α → α → Except ε Bool) (n : Nat) : Nat → Nat → (Nat → α) → Except ε (Nat → α)
  | 0, _, arr => .ok arr
  | rounds + 1, parent, arr => do
    let child ← tryGreaterChild lt arr n parent
    if n < child then return arr
    else
      let less ← lt (arr parent) (arr child)
      if less then tryBubble lt n rounds child (exchange arr parent child) else return arr

/-- Bubbles down the element at a position of a heap of length `n`. -/
def tryBubbleDown (lt : α → α → Except ε Bool) (i n : Nat) (arr : Nat → α) : Except ε (Nat → α) := tryBubble lt n n i arr

/-- Bubbles down the elements from a position down to the first one. -/
def tryHeapify (lt : α → α → Except ε Bool) (n : Nat) : Nat → (Nat → α) → Except ε (Nat → α)
  | 0, arr => .ok arr
  | i + 1, arr => do tryHeapify lt n i (← tryBubbleDown lt (i + 1) n arr)

/-- Takes the greatest elements out of a heap of so many elements, one after the other. -/
def tryExtract (lt : α → α → Except ε Bool) : Nat → (Nat → α) → Except ε (Nat → α)
  | 0, arr => .ok arr
  | 1, arr => .ok arr
  | i + 2, arr => do tryExtract lt (i + 1) (← tryBubbleDown lt 1 (i + 1) (exchange arr 1 (i + 2)))

/-- Heap sort of the first `n` elements. -/
def tryHeapSort (lt : α → α → Except ε Bool) (n : Nat) (arr : Nat → α) : Except ε (Nat → α) := do
  tryExtract lt n (← tryHeapify lt n (n / 2) arr)

/-- The elements of a list, which is put in an array, after heap sort. -/
def tryHeapSortList (lt : α → α → Except ε Bool) : List α → Except ε (List α)
  | [] => .ok []
  | x :: xs => do
    let arr ← tryHeapSort lt (xs.length + 1) fun i => (x :: xs).getD (i - 1) x
    return (List.range' 1 (xs.length + 1)).map arr

/-- These elements can be compared, with these results. -/
def Comparable (lt : α → α → Except ε Bool) (good : α → Prop) (value : α → α → Bool) : Prop :=
  ∀ a b, good a → good b → lt a b = .ok (value a b)

/-- Only these elements can be compared. -/
def Required (lt : α → α → Except ε Bool) (good : α → Prop) : Prop := ∀ a b v, lt a b = .ok v → good a ∧ good b

variable {lt : α → α → Except ε Bool} {good : α → Prop} {value : α → α → Bool} {arr arr' : Nat → α} {n i p : Nat}

theorem tryGreaterChild_ok (comparable : Comparable lt good value) (all : ∀ i, 1 ≤ i → i ≤ n → good (arr i)) (pos : 0 < p) :
    tryGreaterChild lt arr n p = .ok (greaterChild value arr n p) := by
  unfold tryGreaterChild greaterChild
  by_cases less : 2 * p < n
  · rw [if_pos less, comparable _ _ (all _ (by omega) (by omega)) (all _ (by omega) (by omega))]
    simp [less, bind, Except.bind, pure, Except.pure]
  · rw [if_neg less, if_neg fun both => less both.1]

theorem tryBubble_ok (comparable : Comparable lt good value) (all : ∀ i, 1 ≤ i → i ≤ n → good (arr i)) (rounds : Nat)
    (pos : 0 < p) (inside : p ≤ n) : tryBubble lt n rounds p arr = .ok (bubble value n rounds p arr) := by
  induction rounds generalizing arr p with
  | zero => rfl
  | succ rounds ih =>
    unfold tryBubble
    rw [tryGreaterChild_ok comparable all pos, bubble_succ]
    show (if n < greaterChild value arr n p then _ else _) = _
    have isChild := greaterChild_child value arr n p
    unfold Child at isChild
    by_cases beyond : n < greaterChild value arr n p
    · rw [if_pos beyond, if_pos beyond]
      rfl
    rw [if_neg beyond, if_neg beyond, comparable _ _ (all _ (by omega) inside) (all _ (by omega) (by omega))]
    show (if value (arr p) (arr (greaterChild value arr n p)) = true then _ else _) = _
    split
    · apply ih
      · intro i lower upper
        have same : Rearranged arr (exchange arr p (greaterChild value arr n p)) 1 n :=
          Rearranged.exchange arr (by omega) (by omega)
        obtain ⟨j, inside', isElement⟩ := same.inside ⟨lower, upper⟩
        rw [isElement]
        exact all j inside'.1 inside'.2
      · omega
      · omega
    · rfl

theorem Rearranged.allGood (rearranged : Rearranged arr arr' 1 n) (all : ∀ i, 1 ≤ i → i ≤ n → good (arr i)) :
    ∀ i, 1 ≤ i → i ≤ n → good (arr' i) := by
  intro i lower upper
  obtain ⟨j, inside, isElement⟩ := rearranged.inside ⟨lower, upper⟩
  rw [isElement]
  exact all j inside.1 inside.2

section

variable (comparable : Comparable lt good value)
include comparable

theorem tryHeapify_ok (all : ∀ i, 1 ≤ i → i ≤ n → good (arr i)) (inside : i ≤ n) :
    tryHeapify lt n i arr = .ok (heapify value n i arr) := by
  induction i generalizing arr with
  | zero => rfl
  | succ i ih =>
    have step : tryBubbleDown lt (i + 1) n arr = .ok (bubbleDown value (i + 1) n arr) :=
      tryBubble_ok comparable all n (Nat.succ_pos i) inside
    unfold tryHeapify
    rw [step]
    exact ih ((bubbleDown_rearranged value arr (Nat.succ_pos i)).allGood all) (by omega)

theorem tryExtract_ok (all : ∀ j, 1 ≤ j → j ≤ i → good (arr j)) :
    tryExtract lt i arr = .ok (extract value i arr) := by
  induction i using Nat.strongRecOn generalizing arr with
  | ind i ih =>
    match i, ih, all with
    | 0, _, _ => rfl
    | 1, _, _ => rfl
    | i + 2, ih, all =>
      have moved : Rearranged arr (exchange arr 1 (i + 2)) 1 (i + 2) := Rearranged.exchange arr (by omega) (by omega)
      have swapped := moved.allGood all
      have fewer : ∀ j, 1 ≤ j → j ≤ i + 1 → good (exchange arr 1 (i + 2) j) := fun j lower upper =>
        swapped j lower (Nat.le_succ_of_le upper)
      have step : tryBubbleDown lt 1 (i + 1) (exchange arr 1 (i + 2)) =
          .ok (bubbleDown value 1 (i + 1) (exchange arr 1 (i + 2))) :=
        tryBubble_ok comparable fewer (i + 1) Nat.one_pos (by omega)
      unfold tryExtract
      rw [step]
      exact ih (i + 1) (by omega) ((bubbleDown_rearranged value _ Nat.one_pos).allGood fewer)

theorem tryHeapSort_ok (all : ∀ i, 1 ≤ i → i ≤ n → good (arr i)) :
    tryHeapSort lt n arr = .ok (heapSort value n arr) := by
  unfold tryHeapSort
  rw [tryHeapify_ok comparable all (Nat.div_le_self n 2)]
  exact tryExtract_ok comparable ((heapify_rearranged value arr n (n / 2)).allGood all)

theorem tryHeapSortList_ok {xs : List α} (all : ∀ a ∈ xs, good a) :
    tryHeapSortList lt xs = .ok (heapSortList value xs) := by
  cases xs with
  | nil => rfl
  | cons x xs =>
    unfold tryHeapSortList
    dsimp only
    rw [tryHeapSort_ok comparable fun i lower upper => ?_]
    · rfl
    · have inside : i - 1 < (x :: xs).length := by
        rw [List.length_cons]
        omega
      rw [List.getD_eq_getElem _ _ inside]
      exact all _ (List.getElem_mem inside)

end

section

variable (required : Required lt good)
include required

theorem tryGreaterChild_good {c : Nat} (inside : 2 * p ≤ n)
    (run : tryGreaterChild lt arr n p = .ok c) : Child p c ∧ c ≤ n ∧
      (good (arr c) → good (arr (2 * p)) ∧ (2 * p < n → good (arr (2 * p + 1)))) := by
  unfold tryGreaterChild at run
  by_cases both : 2 * p < n
  · rw [if_pos both] at run
    obtain ⟨second, isSecond, run⟩ := bind_ok.mp run
    have compared := required _ _ _ isSecond
    rw [← Except.ok.inj run]
    split
    · exact ⟨Or.inr rfl, both, fun _ => ⟨compared.1, fun _ => compared.2⟩⟩
    · exact ⟨Or.inl rfl, inside, fun _ => ⟨compared.1, fun _ => compared.2⟩⟩
  · rw [if_neg both] at run
    rw [← Except.ok.inj run]
    exact ⟨Or.inl rfl, inside, fun isGood => ⟨isGood, fun less => absurd less both⟩⟩

theorem tryBubble_compares {rounds : Nat} (inside : 2 * p ≤ n)
    (run : tryBubble lt n (rounds + 1) p arr = .ok arr') :
    good (arr p) ∧ good (arr (2 * p)) ∧ (2 * p < n → good (arr (2 * p + 1))) ∧
      (arr' = arr ∨ ∃ c, Child p c ∧ c ≤ n ∧ tryBubble lt n rounds c (exchange arr p c) = .ok arr') := by
  unfold tryBubble at run
  obtain ⟨c, isChild, run⟩ := bind_ok.mp run
  obtain ⟨child, upper, others⟩ := tryGreaterChild_good required inside isChild
  rw [if_neg (by omega)] at run
  obtain ⟨less, isLess, run⟩ := bind_ok.mp run
  have compared := required _ _ _ isLess
  have others := others compared.2
  refine ⟨compared.1, others.1, others.2, ?_⟩
  split at run
  · exact Or.inr ⟨c, child, upper, run⟩
  · exact Or.inl (Except.ok.inj run).symm

theorem tryBubble_good {rounds : Nat} (pos : 0 < p)
    (run : tryBubble lt n rounds p arr = .ok arr') {j : Nat} (isGood : good (arr' j)) (bad : ¬ good (arr j)) : False := by
  induction rounds generalizing arr p with
  | zero => exact bad (Except.ok.inj run ▸ isGood)
  | succ rounds ih =>
    by_cases inside : 2 * p ≤ n
    · obtain ⟨parent, left, right, same | ⟨c, isChild, upper, rest⟩⟩ := tryBubble_compares required inside run
      · exact bad (same ▸ isGood)
      · have child : good (arr c) := by
          rcases isChild with rfl | rfl
          · exact left
          · exact right (by omega)
        have positive : 0 < c := by
          unfold Child at isChild
          omega
        refine ih positive rest (fun still => ?_)
        by_cases isParent : j = p
        · exact bad (isParent ▸ parent)
        · by_cases isSame : j = c
          · exact bad (isSame ▸ child)
          · rw [exchange_other arr isParent isSame] at still
            exact bad still
    · unfold tryBubble tryGreaterChild at run
      rw [if_neg (by omega)] at run
      have run : (if n < 2 * p then (.ok arr : Except ε (Nat → α)) else _) = .ok arr' := run
      rw [if_pos (by omega)] at run
      exact bad (Except.ok.inj run ▸ isGood)

theorem tryHeapify_good (inside : 2 * i ≤ n) (run : tryHeapify lt n i arr = .ok arr') :
    (∀ j, ¬ good (arr j) → ¬ good (arr' j)) ∧ ∀ j, 1 ≤ j → j ≤ n → j ≤ i ∨ 2 ≤ j ∧ j ≤ 2 * i + 1 → good (arr j) := by
  induction i generalizing arr with
  | zero =>
    refine ⟨fun j bad isGood => bad (Except.ok.inj run ▸ isGood), fun j lower _ part => ?_⟩
    omega
  | succ i ih =>
    unfold tryHeapify at run
    obtain ⟨next, first, rest⟩ := bind_ok.mp run
    obtain ⟨keeps, compared⟩ := ih (by omega) rest
    have bubbled : ∀ j, ¬ good (arr j) → ¬ good (next j) := fun j bad isGood =>
      tryBubble_good required (Nat.succ_pos i) first isGood bad
    refine ⟨fun j bad => keeps j (bubbled j bad), fun j lower upper part => ?_⟩
    obtain ⟨rounds, isRounds⟩ : ∃ rounds, n = rounds + 1 := ⟨n - 1, by omega⟩
    have first : tryBubble lt n n (i + 1) arr = .ok next := first
    nth_rewrite 2 [isRounds] at first
    obtain ⟨parent, left, right, -⟩ := tryBubble_compares required (by omega) first
    by_cases old : j ≤ i ∨ 2 ≤ j ∧ j ≤ 2 * i + 1
    · exact Classical.byContradiction fun bad => bubbled j bad (compared j lower upper old)
    have here : j = i + 1 ∨ j = 2 * (i + 1) ∨ j = 2 * (i + 1) + 1 := by omega
    rcases here with rfl | rfl | rfl
    · exact parent
    · exact left
    · exact right (by omega)

theorem tryHeapSort_good (more : 2 ≤ n) (run : tryHeapSort lt n arr = .ok arr') :
    ∀ j, 1 ≤ j → j ≤ n → good (arr j) := by
  unfold tryHeapSort at run
  obtain ⟨heap, first, -⟩ := bind_ok.mp run
  obtain ⟨-, compared⟩ := tryHeapify_good required (by omega) first
  intro j lower upper
  exact compared j lower upper (by omega)

theorem tryHeapSortList_good {xs sorted : List α} (more : 2 ≤ xs.length)
    (run : tryHeapSortList lt xs = .ok sorted) : ∀ a ∈ xs, good a := by
  cases xs with
  | nil => exact fun a inside => absurd inside List.not_mem_nil
  | cons x xs =>
    unfold tryHeapSortList at run
    obtain ⟨arr, first, -⟩ := bind_ok.mp run
    have compared := tryHeapSort_good required more first
    intro a inside
    obtain ⟨k, less, isElement⟩ := List.mem_iff_getElem.mp inside
    have isGood := compared (k + 1) (Nat.succ_pos k) less
    rw [Nat.add_sub_cancel, List.getD_eq_getElem _ _ less, isElement] at isGood
    exact isGood

end

end Sorting
