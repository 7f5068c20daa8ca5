import Ghdl.Vhdl.Aggregates

/-!
# Predefined array operators

A shift by a number of places is the shift by one place done so often, to the other side when the number is negative.
The logical operators are those of the elements, and are an error for operands of different lengths. The elements that
the evaluation computes are those of these operators.
-/

namespace Ghdl.Evaluation

variable {α : Type}

namespace ShiftFunction

/-- The shift to the other side. -/
def opposite : ShiftFunction → ShiftFunction
  | .sll => .srl
  | .srl => .sll
  | .sla => .sra
  | .sra => .sla
  | .rol => .ror
  | .ror => .rol

/-- The shift by one place. -/
def step (fill : α) : ShiftFunction → List α → List α
  | .sll => Shifts.left fill
  | .srl => Shifts.right fill
  | .sla => Shifts.leftRepeat
  | .sra => Shifts.rightRepeat
  | .rol => Shifts.rotateLeft
  | .ror => Shifts.rotateRight

/-- The value of the operator. -/
def apply (func : ShiftFunction) (fill : α) (count : Int) (l : List α) : List α :=
  if count < 0 then (func.opposite.step fill)^[count.natAbs] l else (func.step fill)^[count.natAbs] l

/-- The side of the operator. -/
def isLeft : ShiftFunction → Bool
  | .sll | .sla | .rol => true
  | .srl | .sra | .ror => false

theorem isLeft_opposite (func : ShiftFunction) : func.opposite.isLeft = !func.isLeft := by
  cases func <;> rfl

end ShiftFunction

section Shifted

variable (l : List Literal) (cnt : Nat) (e : Literal)

theorem shifted_left : Shifts.setNth (if cnt < l.length then
          Shifts.setNth (List.replicate l.length nullElement) 0 (l.length - cnt) fun k => l.getD (cnt + k) nullElement
        else List.replicate l.length nullElement)
        (l.length - if cnt < l.length then cnt else l.length) (if cnt < l.length then cnt else l.length) (fun _ => e) =
      (Shifts.left e)^[cnt] l := by
  rw [Shifts.iterate_left]
  apply List.ext_getElem?
  intro i
  rw [List.getElem?_drop]
  by_cases small : cnt < l.length
  · simp only [if_pos small]
    rw [Shifts.getElem?_setNth (by rw [Shifts.length_setNth, List.length_replicate]; omega),
      Shifts.getElem?_setNth (by rw [List.length_replicate]; omega)]
    by_cases moved : cnt + i < l.length
    · rw [if_neg (by omega), if_pos (by omega), List.getElem?_append_left moved]
      simp [List.getD_eq_getElem?_getD, moved]
    rw [List.getElem?_append_right (by omega)]
    by_cases inside : i < l.length
    · rw [if_pos (by omega), List.getElem?_replicate, if_pos (by omega)]
    · rw [if_neg (by omega), if_neg (by omega), List.getElem?_eq_none (by simp; omega),
        List.getElem?_eq_none (by simp; omega)]
  · simp only [if_neg small]
    rw [Shifts.getElem?_setNth (by rw [List.length_replicate]; omega), List.getElem?_append_right (by omega)]
    by_cases inside : i < l.length
    · rw [if_pos (by omega), List.getElem?_replicate, if_pos (by omega)]
    · rw [if_neg (by omega), List.getElem?_eq_none (by simp; omega), List.getElem?_eq_none (by simp; omega)]

theorem shifted_right : Shifts.setNth
        (Shifts.setNth (List.replicate l.length nullElement) 0 (if cnt > l.length then l.length else cnt) fun _ => e)
        (if cnt > l.length then l.length else cnt) (l.length - if cnt > l.length then l.length else cnt)
        (fun k => l.getD k nullElement) = (Shifts.right e)^[cnt] l := by
  rw [Shifts.iterate_right]
  apply List.ext_getElem?
  intro i
  have enough : (if cnt > l.length then l.length else cnt) ≤ l.length := by
    split <;> omega
  rw [Shifts.getElem?_setNth (by rw [Shifts.length_setNth, List.length_replicate]; omega),
    Shifts.getElem?_setNth (by rw [List.length_replicate]; omega), List.getElem?_take]
  by_cases inside : i < l.length
  · rw [if_pos inside]
    by_cases filled : i < cnt
    · have small : i < if cnt > l.length then l.length else cnt := by
        split <;> omega
      rw [if_neg (by omega), if_pos (by omega), List.getElem?_append_left (by simpa using filled)]
      simp [filled]
    have same : (if cnt > l.length then l.length else cnt) = cnt := if_neg (by omega)
    rw [same, if_pos (by omega), List.getElem?_append_right (by simpa using Nat.le_of_not_lt filled),
      List.length_replicate]
    have bound : i - cnt < l.length := by omega
    simp [List.getD_eq_getElem?_getD, bound]
  · rw [if_neg inside, if_neg (by omega), if_neg (by omega), List.getElem?_eq_none (by simp; omega)]

theorem shifted_rotate {start : Nat} (inside : start < l.length) : ((List.range l.length).foldl
      (fun (state : List Literal × Nat) i =>
        (state.1.set i (l.getD state.2 nullElement), if state.2 + 1 = l.length then 0 else state.2 + 1))
      (List.replicate l.length nullElement, start)).1 = l.rotate start := by
  have run : ∀ n ≤ l.length,
      let state := (List.range n).foldl
        (fun (state : List Literal × Nat) i =>
          (state.1.set i (l.getD state.2 nullElement), if state.2 + 1 = l.length then 0 else state.2 + 1))
        (List.replicate l.length nullElement, start)
      state.1.length = l.length ∧ state.2 = (start + n) % l.length ∧ ∀ i < n, state.1[i]? = l[(start + i) % l.length]? := by
    intro n
    induction n with
    | zero => exact fun _ => ⟨by simp, (Nat.mod_eq_of_lt inside).symm, fun i less => absurd less (Nat.not_lt_zero i)⟩
    | succ n ih =>
      intro bound
      obtain ⟨length, position, done⟩ := ih (by omega)
      simp only [List.range_succ, List.foldl_append, List.foldl_cons, List.foldl_nil]
      have less : (start + n) % l.length < l.length := Nat.mod_lt _ (by omega)
      refine ⟨(List.length_set ..).trans length, ?_, fun i small => ?_⟩
      · rw [position, ← Nat.add_assoc, ← Nat.mod_add_mod (start + n)]
        by_cases whole : (start + n) % l.length + 1 = l.length
        · rw [if_pos whole, whole, Nat.mod_self]
        · rw [if_neg whole, Nat.mod_eq_of_lt (by omega : (start + n) % l.length + 1 < l.length)]
      · rw [List.getElem?_set, position]
        by_cases here : n = i
        · rw [if_pos here, if_pos (by omega), here]
          have less' : (start + i) % l.length < l.length := Nat.mod_lt _ (by omega)
          simp [List.getD_eq_getElem?_getD, less']
        · rw [if_neg here]
          exact done i (by omega)
  obtain ⟨length, -, done⟩ := run l.length (Nat.le_refl _)
  apply List.ext_getElem?
  intro i
  by_cases small : i < l.length
  · rw [done i small, List.getElem?_rotate small, Nat.add_comm]
  · rw [List.getElem?_eq_none (by rw [length]; omega), List.getElem?_eq_none (by rw [List.length_rotate]; omega)]

end Shifted

variable {type : ElementType} {l : List Literal}

theorem shiftedElements_opposite (cnt : Nat) (dirLeft : Bool) (func : ShiftFunction) :
    shiftedElements type l cnt dirLeft func.opposite = shiftedElements type l cnt dirLeft func := by
  cases func <;> rfl

theorem shiftedElements_same (nonempty : l ≠ []) (cnt : Nat) (func : ShiftFunction) :
    shiftedElements type l cnt func.isLeft func = (func.step ⟨type, 0⟩)^[cnt] l := by
  have positive : 0 < l.length := List.length_pos_iff.mpr nonempty
  cases func with
  | sll => exact shifted_left l cnt _
  | srl => exact shifted_right l cnt _
  | sla =>
    have isLast : l.getLast? = some (l.getD (l.length - 1) nullElement) := by
      rw [List.getLast?_eq_getElem?, List.getD_eq_getElem?_getD, List.getElem?_eq_getElem (by omega)]
      rfl
    exact (shifted_left l cnt _).trans (Shifts.iterate_leftRepeat isLast cnt).1.symm
  | sra =>
    have isFirst : l.head? = some (l.getD 0 nullElement) := by
      rw [List.head?_eq_getElem?, List.getD_eq_getElem?_getD, List.getElem?_eq_getElem positive]
      rfl
    exact (shifted_right l cnt _).trans (Shifts.iterate_rightRepeat isFirst cnt).1.symm
  | rol =>
    have rotated := shifted_rotate l (Nat.mod_lt cnt positive)
    rw [List.rotate_mod] at rotated
    exact rotated.trans (Shifts.iterate_rotateLeft cnt l).symm
  | ror =>
    have rotated := shifted_rotate l (Nat.mod_lt (l.length - cnt % l.length) positive)
    rw [List.rotate_mod] at rotated
    exact rotated.trans (Shifts.iterate_rotateRight cnt l).symm

theorem shiftedElements_eq (nonempty : l ≠ []) (count : Int) (func : ShiftFunction) :
    shiftedElements type l count.natAbs (if count < 0 then !func.isLeft else func.isLeft) func =
      func.apply ⟨type, 0⟩ count l := by
  unfold ShiftFunction.apply
  split
  · rw [← func.isLeft_opposite, ← shiftedElements_opposite, shiftedElements_same nonempty]
  · exact shiftedElements_same nonempty _ func

/-- The operator on elements. -/
def TfArrayFunction.apply : TfArrayFunction → Bool → Bool → Bool
  | .and, l, r => l && r
  | .or, l, r => l || r
  | .nand, l, r => !(l && r)
  | .nor, l, r => !(l || r)
  | .xor, l, r => l ^^ r
  | .xnor, l, r => !(l ^^ r)

/-- Only `xnor` is not computed. -/
theorem bitArrayElement_eq {func : TfArrayFunction} (known : func ≠ .xnor) (l r : Bool) :
    bitArrayElement func l.toNat r.toNat = .ok (func.apply l r).toNat := by
  cases func with
  | xnor => exact absurd rfl known
  | _ => cases l <;> cases r <;> rfl

/-- The value of an expression, or an error. -/
def lrm : Expr → Option (List Bool)
  | .stringLiteral8 bits => some bits
  | .aggregate aggr => some aggr.elements
  | .not operand => do
    let l ← lrm operand
    return l.map (!·)
  | .tfArray func left right => do
    let l ← lrm left
    let r ← lrm right
    if l.length = r.length then return List.zipWith func.apply l r else none
  | .shift func left count => do
    let l ← lrm left
    return func.apply false count l
  | .arrayArray left right => do
    let l ← lrm left
    let r ← lrm right
    return l ++ r
  | .arrayElement left right => do
    let l ← lrm left
    return l ++ [right]
  | .elementArray left right => do
    let r ← lrm right
    return left :: r
  | .elementElement left right => some [left, right]

end Ghdl.Evaluation
