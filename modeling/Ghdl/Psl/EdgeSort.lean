import Ghdl.Psl.NfasUtils
import Ghdl.Sorting.HeapSortCalls

/-!
# Sorted arrays and edges

The two sorts, of anything by calls and of the edges of a state, return sorted permutations.
-/

namespace Ghdl.Psl.Tables

open Sorting

/-- Heap sort calls `Lt` and `Swap` for indexes of the array only, and the edges of a state are merge sorted. -/
theorem sorts {α : Type} {lt : α → α → Bool} (comparison : Comparison lt) (n : Nat) (arr : Nat → α) (t : Tables)
    (side : Side) (s : NfaState) : (∃ arr', Algos.heapSort (Algos.ltAt lt n) (Algos.swapAt n) n arr = .ok arr' ∧
      ((List.range' 1 n).map arr').Perm ((List.range' 1 n).map arr) ∧
      ∀ i j, 1 ≤ i → i < j → j ≤ n → lt (arr' j) (arr' i) = false) ∧
    ((t.sortEdges side s).chain side s).Perm (t.chain side s) ∧
    ((t.sortEdges side s).chain side s).Pairwise fun e e' => t.edgeLt side e' e = false := by
  have chain : (t.sortEdges side s).chain side s = mergeSort (t.edgeLt side) (t.chain side s).length (t.chain side s) := by
    cases side <;> simp [sortEdges, setChain, Tables.chain]
  rw [chain]
  refine ⟨⟨_, Algos.heapSort_eq, (heapSort_rearranged lt n arr).perm, fun i j pos before inside =>
    heapSort_sorted comparison arr pos before inside⟩, mergeSort_perm _ _ _, mergeSort_pairwise ?_ ?_ ?_ (le_refl _)⟩
  all_goals
    unfold edgeLt
    grind

/-- Three edges of a state, to lower and lower states. -/
def threeEdges : Tables where
  srcEdges s := if s = 1 then [1, 2, 3] else []
  destEdges s := if s = 1 then [3] else if s = 2 then [2] else if s = 3 then [1] else []
  stateLabel _ := 0
  lastState := 3
  freeStates := []
  edgeSrc _ := 1
  edgeDest e := 4 - e
  edgeExpr _ := none
  lastEdge := 3
  freeEdges := []
  nodeIndex _ := 0
  terms := []

/-- They are reversed, and three numbers are sorted. -/
theorem sorts_three : (∃ arr', Algos.heapSort (Algos.ltAt (fun a b => decide (a < b)) 3) (Algos.swapAt 3) 3 (fun i => 9 - i) =
      .ok arr' ∧ ∀ i j, 1 ≤ i → i < j → j ≤ 3 → decide (arr' j < arr' i) = false) ∧
    (threeEdges.sortEdges .src 1).chain .src 1 = [3, 2, 1] ∧
    ((threeEdges.sortEdges .src 1).chain .src 1).Pairwise fun e e' => threeEdges.edgeLt .src e' e = false := by
  have comparison : Comparison fun a b : Nat => decide (a < b) :=
    ⟨fun less => by simp at less ⊢; omega, fun less c => by simp at less ⊢; omega⟩
  obtain ⟨⟨arr', run, -, sorted⟩, -, edges⟩ := sorts comparison 3 (fun i => 9 - i) threeEdges .src 1
  exact ⟨⟨arr', run, sorted⟩, by decide, edges⟩

end Ghdl.Psl.Tables
