import Ghdl.Sorting.HeapSort
import Ghdl.System.Fallible

/-!
# Heap sort by calls

`Algos.Heap_Sort` has no elements, but calls `Lt` and `Swap` with their indexes. For an array of N elements from index 1
on, all these indexes are inside of it, and the calls leave the array that heap sort returns.
-/

namespace Ghdl.Algos

open Fallible Sorting

/-- The ways a call of `Heap_Sort` ends without returning. -/
inductive SortError
  /-- `Lt` or `Swap` is called with an index outside of the array. -/
  | indexCheck
  /-- The loop of `Bubble_Down` takes more steps than its bound. -/
  | steps
deriving DecidableEq

section

variable {σ : Type} (lt : σ → Nat → Nat → Except SortError Bool) (swap : σ → Nat → Nat → Except SortError σ)

/-- `Child` when it is compared with `Parent`. -/
def greaterChild (n parent : Nat) (s : σ) : Except SortError Nat :=
  if 2 * parent < n then do
    .ok (if ← lt s (2 * parent) (2 * parent + 1) then 2 * parent + 1 else 2 * parent)
  else .ok (2 * parent)

/-- The loop of `Bubble_Down`, with a bound for its steps. -/
def bubbleDown (n : Nat) : Nat → Nat → σ → Except SortError σ
  | 0, _, _ => .error .steps
  | steps + 1, parent, s => do
    let child ← greaterChild lt n parent s
    if n < child then .ok s
    else if ← lt s parent child then bubbleDown n steps child (← swap s parent child)
    else .ok s

/-- The loop `Heapify` from an index on. -/
def heapify (n : Nat) : Nat → σ → Except SortError σ
  | 0, s => .ok s
  | i + 1, s => do heapify n i (← bubbleDown lt swap n n (i + 1) s)

/-- The loop `Sort` from an index on. -/
def sort : Nat → σ → Except SortError σ
  | 0, s => .ok s
  | 1, s => .ok s
  | i + 2, s => do sort (i + 1) (← bubbleDown lt swap (i + 1) (i + 1) 1 (← swap s 1 (i + 2)))

/-- `Heap_Sort`. -/
def heapSort (n : Nat) (s : σ) : Except SortError σ := do
  sort lt swap n (← heapify lt swap n (n / 2) s)

end

variable {α : Type} {lt : α → α → Bool} {arr : Nat → α} {last n i p : Nat}

/-- `Lt` for the elements of an array from 1 to LAST. -/
def ltAt (lt : α → α → Bool) (last : Nat) (arr : Nat → α) (i j : Nat) : Except SortError Bool :=
  if (1 ≤ i ∧ i ≤ last) ∧ 1 ≤ j ∧ j ≤ last then .ok (lt (arr i) (arr j)) else .error .indexCheck

/-- `Swap` for the elements of an array from 1 to LAST. -/
def swapAt (last : Nat) (arr : Nat → α) (i j : Nat) : Except SortError (Nat → α) :=
  if (1 ≤ i ∧ i ≤ last) ∧ 1 ≤ j ∧ j ≤ last then .ok (exchange arr i j) else .error .indexCheck

theorem greaterChild_eq (inside : n ≤ last) (pos : 0 < p) :
    greaterChild (ltAt lt last) n p arr = .ok (Sorting.greaterChild lt arr n p) := by
  unfold greaterChild Sorting.greaterChild
  by_cases less : 2 * p < n
  · rw [if_pos less, ltAt, if_pos (by omega)]
    simp [less, bind, Except.bind]
  · rw [if_neg less, if_neg fun both => less both.1]

theorem bubbleDown_eq {steps : Nat} (inside : n ≤ last) (pos : 0 < p) (upper : p ≤ n) (enough : n < p + steps) :
    bubbleDown (ltAt lt last) (swapAt last) n steps p arr = .ok (bubble lt n steps p arr) := by
  induction steps generalizing arr p with
  | zero => omega
  | succ steps ih =>
    unfold bubbleDown
    rw [greaterChild_eq inside pos, bubble_succ]
    show (if n < Sorting.greaterChild lt arr n p then _ else _) = _
    have child := greaterChild_child lt arr n p
    unfold Child at child
    by_cases beyond : n < Sorting.greaterChild lt arr n p
    · rw [if_pos beyond, if_pos beyond]
    rw [if_neg beyond, if_neg beyond, ltAt, if_pos (by omega)]
    show (if lt (arr p) (arr (Sorting.greaterChild lt arr n p)) = true then _ else _) = _
    split
    · rw [swapAt, if_pos (by omega)]
      exact ih (by omega) (by omega) (by omega)
    · rfl

theorem heapify_eq (inside : i ≤ n) :
    heapify (ltAt lt n) (swapAt n) n i arr = .ok (Sorting.heapify lt n i arr) := by
  induction i generalizing arr with
  | zero => rfl
  | succ i ih =>
    unfold heapify
    rw [bubbleDown_eq (le_refl n) (Nat.succ_pos i) inside (by omega)]
    exact ih (by omega)

theorem sort_eq (inside : i ≤ n) : sort (ltAt lt n) (swapAt n) i arr = .ok (extract lt i arr) := by
  induction i using Nat.strongRecOn generalizing arr with
  | ind i ih =>
    match i, ih, inside with
    | 0, _, _ | 1, _, _ => rfl
    | i + 2, ih, inside =>
      unfold sort
      rw [swapAt, if_pos (by omega)]
      show (bubbleDown (ltAt lt n) (swapAt n) (i + 1) (i + 1) 1 (exchange arr 1 (i + 2)) >>= _) = _
      rw [bubbleDown_eq (by omega) Nat.one_pos (by omega) (by omega)]
      exact ih (i + 1) (by omega) (by omega)

/-- The calls do what heap sort of the array does. -/
theorem heapSort_eq : heapSort (ltAt lt n) (swapAt n) n arr = .ok (Sorting.heapSort lt n arr) := by
  unfold heapSort
  rw [heapify_eq (Nat.div_le_self n 2)]
  exact sort_eq (le_refl n)

end Ghdl.Algos
