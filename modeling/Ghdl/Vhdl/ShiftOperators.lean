import Ghdl.Vhdl.ArrayValues

/-!
# Shifts in the evaluation and in the simulator

`Eval_Shift_Operator` works on a list of elements and `Execute_Shift_Operator` on the elements of an array, numbered
from one. Both fill the result from its first element to the last one, and both convert the magnitude of the count to
32 bits: that fails for `INTEGER'LOW`. The simulator also counts one place too far for the longest arrays.
-/

namespace Ghdl.ShiftOperators

open Evaluation Fallible

/-- `Natural'Last` and `Iir_Index32'Last`. -/
def index32Last : Nat := 2147483647

/-- The elements of an array value: their number is a `Natural`. -/
structure ArrayValue (α : Type) where
  elements : List α
  bounded : elements.length ≤ index32Last

/-- A value of type `INTEGER`. -/
structure VhdlInteger where
  value : Int
  low : -2147483648 ≤ value
  high : value ≤ 2147483647

/-- `INTEGER'LOW`. -/
def integerLow : Int := -2147483648

/-- The direction of the function. -/
def dirLeft : ShiftFunction → Bool
  | .sll | .sla | .rol => true
  | .srl | .sra | .ror => false

/-- `Cnt` and `Dir_Left`: the magnitude of the count is a `Natural`, or an `Iir_Index32`. -/
def magnitude (count : Int) (func : ShiftFunction) : Except Failure (Nat × Bool) :=
  if count < 0 then do
    let cnt ← toNatural (-count)
    return (cnt, !dirLeft func)
  else do
    let cnt ← toNatural count
    return (cnt, dirLeft func)

/-- `Cnt` of a rotation: the first element to take. -/
def rotateStart (cnt len : Nat) (dirLeft : Bool) : Nat :=
  let cnt := cnt % len
  if dirLeft then cnt else (len - cnt) % len

variable {α : Type}

/-- `Get_Nth_Element`. -/
def getNthElement (list : List α) (n : Nat) : Except Failure α :=
  match list[n]? with
  | some el => .ok el
  | none => .error .assertion

/-- `Set_Nth_Element`. The elements that are not set are `none`. -/
def setNthElement (list : List (Option α)) (n : Nat) (v : α) : Except Failure (List (Option α)) :=
  if n < list.length then .ok (list.set n (some v)) else .error .assertion

/-- A loop from FIRST to LAST that sets the element of RES for each index. -/
def setLoop (first last : Nat) (position : Nat → Nat) (element : Nat → Except Failure α) (res : List (Option α)) :
    Except Failure (List (Option α)) :=
  (List.range' first (last - first)).foldlM
    (fun res i => do
      let el ← element i
      setNthElement res (position i) el) res

/-- The loops of `Eval_Shift_Operator` for `sll`, `srl`, `sla` and `sra`. -/
def evalShift (arrList : List α) (cnt : Nat) (dirLeft : Bool) (e : α) : Except Failure (List (Option α)) := do
  let len := arrList.length
  let resList := List.replicate len none
  if dirLeft then
    let (resList, cnt) ←
      if cnt < len then do
        let resList ← setLoop cnt len (fun i => i - cnt) (getNthElement arrList) resList
        pure (resList, cnt)
      else pure (resList, len)
    setLoop 0 cnt (fun i => len - cnt + i) (fun _ => .ok e) resList
  else
    let cnt := if cnt > len then len else cnt
    let resList ← setLoop 0 cnt (fun i => i) (fun _ => .ok e) resList
    setLoop cnt len (fun i => i) (fun i => getNthElement arrList (i - cnt)) resList

/-- The loop of `Eval_Shift_Operator` for `rol` and `ror`. -/
def evalRotate (arrList : List α) (cnt : Nat) : Except Failure (List (Option α)) := do
  let len := arrList.length
  let (resList, _) ← (List.range' 1 len).foldlM
    (fun (resList, cnt) i => do
      let el ← getNthElement arrList cnt
      let resList ← setNthElement resList (i - 1) el
      return (resList, if cnt + 1 = len then 0 else cnt + 1))
    (List.replicate len none, cnt)
  return resList

/-- `Eval_Shift_Operator`, for elements whose type has the first literal LITERAL. -/
def evalShiftOperator (literal : α) (left : ArrayValue α) (count : VhdlInteger) (func : ShiftFunction) :
    Except Failure (List (Option α)) := do
  let arrList := left.elements
  let len := arrList.length
  if count.value = 0 ∨ len = 0 then return arrList.map some
  else
    let (cnt, dirLeft) ← magnitude count.value func
    match func with
    | .sll | .srl => evalShift arrList cnt dirLeft literal
    | .sla | .sra =>
      let e ← getNthElement arrList (if dirLeft then len - 1 else 0)
      evalShift arrList cnt dirLeft e
    | .rol | .ror => evalRotate arrList (rotateStart cnt len dirLeft)

/-- An element of `Left.Val_Array.V`. -/
def getV (v : List α) (n : Nat) : Except Failure α :=
  if n = 0 then .error .constraintError
  else
    match v[n - 1]? with
    | some el => .ok el
    | none => .error .constraintError

/-- `Res.Val_Array.V (P) := E; P := P + 1`, where `P` is an `Iir_Index32`. -/
def assignNext (state : List (Option α) × Nat) (e : α) : Except Failure (List (Option α) × Nat) := do
  let (v, p) := state
  if p = 0 ∨ v.length < p then .error .constraintError
  else
    let v := v.set (p - 1) (some e)
    if index32Last < p + 1 then .error .constraintError else return (v, p + 1)

/-- A loop from FIRST to LAST that assigns the next element of RES for each index. -/
def assignLoop (first last : Nat) (element : Nat → Except Failure α) (state : List (Option α) × Nat) :
    Except Failure (List (Option α) × Nat) :=
  (List.range' first (last - first)).foldlM
    (fun state i => do
      let e ← element i
      assignNext state e) state

/-- The loops of `Execute_Shift_Operator` for `sll`, `srl`, `sla` and `sra`. -/
def executeShift (v : List α) (cnt : Nat) (dirLeft : Bool) (e : α) : Except Failure (List (Option α)) := do
  let len := v.length
  let state := (List.replicate len none, 1)
  if dirLeft then
    let (state, cnt) ←
      if cnt < len then do
        let state ← assignLoop cnt len (fun i => getV v (i + 1)) state
        pure (state, cnt)
      else pure (state, len)
    let (res, _) ← assignLoop 0 cnt (fun _ => .ok e) state
    return res
  else
    let cnt := if cnt > len then len else cnt
    let state ← assignLoop 0 cnt (fun _ => .ok e) state
    let (res, _) ← assignLoop cnt len (fun i => getV v (i - cnt + 1)) state
    return res

/-- The loop of `Execute_Shift_Operator` for `rol` and `ror`. -/
def executeRotate (v : List α) (cnt : Nat) : Except Failure (List (Option α)) := do
  let len := v.length
  let ((res, _), _) ← (List.range' 1 len).foldlM
    (fun (state, cnt) _ => do
      let e ← getV v (cnt + 1)
      let state ← assignNext state e
      return (state, if cnt + 1 = len then 0 else cnt + 1))
    ((List.replicate len none, 1), cnt)
  return res

/-- `Execute_Shift_Operator`, for elements whose type has the first value LITERAL. -/
def executeShiftOperator (literal : α) (left : ArrayValue α) (count : VhdlInteger) (func : ShiftFunction) :
    Except Failure (List (Option α)) := do
  let v := left.elements
  let len := v.length
  if count.value = 0 ∨ len = 0 then return v.map some
  else
    let (cnt, dirLeft) ← magnitude count.value func
    match func with
    | .sll | .srl => executeShift v cnt dirLeft literal
    | .sla | .sra =>
      let e ← getV v (if dirLeft then len else 1)
      executeShift v cnt dirLeft e
    | .rol | .ror => executeRotate v (rotateStart cnt len dirLeft)

/-- The elements after a shift. -/
def shifted (l : List α) (cnt : Nat) (dirLeft : Bool) (e : α) : List α :=
  if dirLeft then l.drop cnt ++ List.replicate (min cnt l.length) e
  else List.replicate (min cnt l.length) e ++ l.take (l.length - cnt)

/-- So many elements from a position on, with the first one after the last one. -/
def cycle (l : List α) : Nat → Nat → List α
  | 0, _ => []
  | k + 1, c => (l[c]?).toList ++ cycle l k (if c + 1 = l.length then 0 else c + 1)

variable {l : List α} {cnt : Nat} {e : α}

theorem length_shifted (l : List α) (cnt : Nat) (dirLeft : Bool) (e : α) : (shifted l cnt dirLeft e).length = l.length := by
  unfold shifted
  cases dirLeft with
  | true =>
    rw [if_pos rfl, List.length_append, List.length_drop, List.length_replicate]
    omega
  | false =>
    rw [if_neg Bool.false_ne_true, List.length_append, List.length_take, List.length_replicate]
    omega

theorem shifted_left (l : List α) (cnt : Nat) (e : α) : shifted l cnt true e = (Shifts.left e)^[cnt] l := by
  rw [Shifts.iterate_left]
  unfold shifted
  rw [if_pos rfl, List.drop_append]
  have rest : (List.replicate cnt e).drop (cnt - l.length) = List.replicate (min cnt l.length) e := by
    rw [List.drop_replicate]
    congr 1
    omega
  rw [rest]

theorem shifted_right (l : List α) (cnt : Nat) (e : α) : shifted l cnt false e = (Shifts.right e)^[cnt] l := by
  rw [Shifts.iterate_right]
  unfold shifted
  rw [if_neg Bool.false_ne_true, List.take_append, List.length_replicate, List.take_replicate, Nat.min_comm]

variable {c : Nat}

theorem cycle_eq_take {k : Nat} (inside : c < l.length) (few : k ≤ l.length) :
    cycle l k c = (l.drop c ++ l).take k := by
  induction k generalizing c with
  | zero => rw [List.take_zero, cycle]
  | succ k ih =>
    have first : l.drop c = l[c] :: l.drop (c + 1) := List.drop_eq_getElem_cons inside
    rw [cycle, List.getElem?_eq_getElem inside, first, List.cons_append, List.take_succ_cons]
    by_cases isLast : c + 1 = l.length
    · rw [if_pos isLast, ih (by omega) (by omega), isLast, List.drop_length, List.nil_append, List.drop_zero,
        List.take_append_of_le_length (by omega)]
      rfl
    · rw [if_neg isLast, ih (by omega) (by omega)]
      rfl

theorem cycle_rotate (inside : c < l.length) : cycle l l.length c = l.rotate c := by
  rw [cycle_eq_take inside (Nat.le_refl _), List.rotate_eq_drop_append_take (Nat.le_of_lt inside), List.take_append,
    List.length_drop, List.take_of_length_le (by rw [List.length_drop]; omega), Nat.sub_sub_self (Nat.le_of_lt inside)]

theorem apply_eq (nonempty : l ≠ []) (fill : α) (count : Int) (func : ShiftFunction) : func.apply fill count l =
      match func with
      | .sll | .srl => shifted l count.natAbs (if count < 0 then !dirLeft func else dirLeft func) fill
      | .sla | .sra =>
        let dir := if count < 0 then !dirLeft func else dirLeft func
        shifted l count.natAbs dir (l.getD (if dir then l.length - 1 else 0) fill)
      | .rol | .ror =>
        l.rotate (rotateStart count.natAbs l.length (if count < 0 then !dirLeft func else dirLeft func)) := by
  have positive : 0 < l.length := List.length_pos_iff.mpr nonempty
  have isLast : l.getLast? = some (l.getD (l.length - 1) fill) := by
    rw [List.getLast?_eq_getElem?, List.getD_eq_getElem?_getD, List.getElem?_eq_getElem (by omega)]
    rfl
  have isFirst : l.head? = some (l.getD 0 fill) := by
    rw [List.head?_eq_getElem?, List.getD_eq_getElem?_getD, List.getElem?_eq_getElem positive]
    rfl
  have toLeft : l.rotate (rotateStart count.natAbs l.length true) = Shifts.rotateLeft^[count.natAbs] l := by
    rw [Shifts.iterate_rotateLeft, rotateStart, if_pos rfl, List.rotate_mod]
  have toRight : l.rotate (rotateStart count.natAbs l.length false) = Shifts.rotateRight^[count.natAbs] l := by
    rw [Shifts.iterate_rotateRight, rotateStart, if_neg Bool.false_ne_true, List.rotate_mod]
  have repeatsLast := (Shifts.iterate_leftRepeat isLast count.natAbs).1
  have repeatsFirst := (Shifts.iterate_rightRepeat isFirst count.natAbs).1
  unfold ShiftFunction.apply
  by_cases negative : count < 0
  · simp only [if_pos negative]
    cases func with
    | sll => exact (shifted_right l _ fill).symm
    | srl => exact (shifted_left l _ fill).symm
    | sla => exact repeatsFirst.trans (shifted_right l _ _).symm
    | sra => exact repeatsLast.trans (shifted_left l _ _).symm
    | rol => exact toRight.symm
    | ror => exact toLeft.symm
  simp only [if_neg negative]
  cases func with
  | sll => exact (shifted_left l _ fill).symm
  | srl => exact (shifted_right l _ fill).symm
  | sla => exact repeatsLast.trans (shifted_left l _ _).symm
  | sra => exact repeatsFirst.trans (shifted_right l _ _).symm
  | rol => exact toLeft.symm
  | ror => exact toRight.symm

/-- A result whose first elements are set. -/
def filled (done : List α) (n : Nat) : List (Option α) := done.map some ++ List.replicate n none

theorem length_filled (done : List α) (n : Nat) : (filled done n).length = done.length + n := by
  simp [filled]

theorem set_filled (done : List α) (n : Nat) (v : α) :
    (filled done (n + 1)).set done.length (some v) = filled (done ++ [v]) n := by
  unfold filled
  rw [List.set_append_right _ _ (by simp), List.length_map, Nat.sub_self, List.replicate_succ, List.set_cons_zero,
    List.map_append, List.append_assoc]
  rfl

theorem setNthElement_filled (done : List α) (n : Nat) (v : α) :
    setNthElement (filled done (n + 1)) done.length v = .ok (filled (done ++ [v]) n) := by
  unfold setNthElement
  rw [if_pos (by rw [length_filled]; omega), set_filled]

theorem getNthElement_eq {n : Nat} (inside : n < l.length) : getNthElement l n = .ok l[n] := by
  unfold getNthElement
  rw [List.getElem?_eq_getElem inside]

theorem getV_eq {n : Nat} (inside : n < l.length) : getV l (n + 1) = .ok l[n] := by
  unfold getV
  rw [if_neg (Nat.succ_ne_zero n), Nat.add_sub_cancel, List.getElem?_eq_getElem inside]

variable {els : List α}

theorem setLoop_eq (first n : Nat) (position : Nat → Nat) (element : Nat → Except Failure α) (done : List α) {count : Nat} (length : els.length = count) (each : ∀ k (inside : k < els.length), element (first + k) = .ok els[k])
    (places : ∀ k < count, position (first + k) = done.length + k) :
    setLoop first (first + count) position element (filled done (count + n)) = .ok (filled (done ++ els) n) := by
  unfold setLoop
  rw [Nat.add_sub_cancel_left]
  induction els generalizing first count done with
  | nil =>
    obtain rfl : count = 0 := length.symm
    rw [List.append_nil, Nat.zero_add]
    rfl
  | cons a els ih =>
    obtain ⟨count, rfl⟩ : ∃ m, count = m + 1 := ⟨els.length, length.symm⟩
    have here : element first = .ok a := each 0 (by simp)
    have place : position first = done.length := places 0 (Nat.succ_pos count)
    have rest := ih (first + 1) (done ++ [a]) (Nat.succ.inj length)
      (fun k inside => by
        have next := each (k + 1) (by simpa using inside)
        rw [Nat.add_right_comm, Nat.add_assoc]
        exact next)
      (fun k inside => by
        rw [Nat.add_right_comm, Nat.add_assoc, places (k + 1) (by omega), List.length_append, List.length_singleton]
        omega)
    rw [List.range'_succ, List.foldlM_cons, here]
    show (setNthElement _ (position first) a >>= _) = _
    rw [place, Nat.add_right_comm, setNthElement_filled]
    show List.foldlM _ _ _ = _
    rw [rest, List.append_assoc]
    rfl

theorem filled_nil (n : Nat) : filled ([] : List α) n = List.replicate n none := rfl

theorem filled_zero (done : List α) : filled done 0 = done.map some := List.append_nil _

theorem evalShift_eq (l : List α) (cnt : Nat) (dirLeft : Bool) (e : α) :
    evalShift l cnt dirLeft e = .ok ((shifted l cnt dirLeft e).map some) := by
  unfold evalShift shifted
  dsimp only
  rw [← filled_nil, ← filled_zero]
  cases dirLeft with
  | true =>
    rw [if_pos rfl, if_pos rfl]
    have fills : ∀ (n : Nat) (done : List α), done.length + n = l.length →
        setLoop 0 n (fun i => l.length - n + i) (fun _ => .ok e) (filled done n) =
          .ok (filled (done ++ List.replicate n e) 0) := by
      intro n done whole
      have loop := setLoop_eq 0 0 (fun i => l.length - n + i) (fun _ => .ok e) done
        (List.length_replicate (n := n) (a := e)) (fun k inside => by rw [List.getElem_replicate])
        (fun k inside => by omega)
      rw [Nat.zero_add, Nat.add_zero] at loop
      exact loop
    by_cases small : cnt < l.length
    · rw [if_pos small]
      have moves := setLoop_eq cnt cnt (fun i => i - cnt) (getNthElement l) []
        (List.length_drop (i := cnt) (l := l))
        (fun k inside => by
          rw [List.length_drop] at inside
          rw [getNthElement_eq (by omega), List.getElem_drop])
        (fun k inside => by rw [List.length_nil]; omega)
      rw [Nat.add_sub_cancel' (Nat.le_of_lt small), Nat.sub_add_cancel (Nat.le_of_lt small), List.nil_append] at moves
      rw [moves, Nat.min_eq_left (Nat.le_of_lt small)]
      exact fills cnt _ (by rw [List.length_drop]; omega)
    · rw [if_neg small, Nat.min_eq_right (Nat.le_of_not_lt small), List.drop_of_length_le (Nat.le_of_not_lt small)]
      exact fills l.length [] (by rw [List.length_nil, Nat.zero_add])
  | false =>
    rw [if_neg Bool.false_ne_true, if_neg Bool.false_ne_true]
    have isMin : (if cnt > l.length then l.length else cnt) = min cnt l.length := by
      split <;> omega
    rw [isMin]
    obtain ⟨m, isM⟩ : ∃ m, min cnt l.length = m := ⟨_, rfl⟩
    have few : m ≤ l.length := by omega
    have same : l.take (l.length - cnt) = l.take (l.length - m) := by
      congr 1
      omega
    rw [isM, same]
    have fills := setLoop_eq 0 (l.length - m) (fun i => i) (fun _ => .ok e) []
      (List.length_replicate (n := m) (a := e)) (fun k inside => by rw [List.getElem_replicate])
      (fun k inside => by rw [List.length_nil])
    rw [Nat.zero_add, Nat.add_sub_cancel' few, List.nil_append] at fills
    have moves := setLoop_eq m 0 (fun i => i) (fun i => getNthElement l (i - m)) (List.replicate m e)
      (List.length_take_of_le (Nat.sub_le l.length m))
      (fun k inside => by
        rw [List.length_take] at inside
        rw [Nat.add_sub_cancel_left, getNthElement_eq (by omega), List.getElem_take])
      (fun k inside => by rw [List.length_replicate])
    rw [Nat.add_sub_cancel' few, Nat.add_zero] at moves
    rw [fills]
    exact moves

theorem evalRotate_loop (k : Nat) (done : List α) (inside : c < l.length) :
    ∃ c', (List.range' (done.length + 1) k).foldlM
      (fun (state : List (Option α) × Nat) i => do
        let el ← getNthElement l state.2
        let resList ← setNthElement state.1 (i - 1) el
        return (resList, if state.2 + 1 = l.length then 0 else state.2 + 1))
      (filled done k, c) = .ok (filled (done ++ cycle l k c) 0, c') := by
  induction k generalizing c done with
  | zero =>
    refine ⟨c, ?_⟩
    rw [cycle, List.append_nil]
    rfl
  | succ k ih =>
    have next : (if c + 1 = l.length then 0 else c + 1) < l.length := by
      split <;> omega
    obtain ⟨c', rest⟩ := ih (done ++ [l[c]]) next
    refine ⟨c', ?_⟩
    rw [List.range'_succ, List.foldlM_cons]
    show ((getNthElement l c >>= _) >>= _) = _
    rw [getNthElement_eq inside]
    show ((setNthElement (filled done (k + 1)) (done.length + 1 - 1) l[c] >>= _) >>= _) = _
    rw [Nat.add_sub_cancel, setNthElement_filled]
    rw [List.length_append, List.length_singleton, List.append_assoc] at rest
    rw [cycle, List.getElem?_eq_getElem inside]
    exact rest

theorem evalRotate_eq {start : Nat} (inside : start < l.length) : evalRotate l start = .ok ((l.rotate start).map some) := by
  obtain ⟨c, loop⟩ := evalRotate_loop l.length [] inside
  rw [List.length_nil, Nat.zero_add, List.nil_append, cycle_rotate inside, filled_zero] at loop
  unfold evalRotate
  dsimp only
  rw [← filled_nil, loop]
  rfl

theorem rotateStart_lt {cnt len : Nat} (positive : 0 < len) (dirLeft : Bool) : rotateStart cnt len dirLeft < len := by
  unfold rotateStart
  cases dirLeft with
  | true | false => exact Nat.mod_lt _ positive

theorem foldlM_assignNext (done : List α) (n : Nat) (fits : done.length + els.length ≤ index32Last) (some : els ≠ []) :
    els.foldlM assignNext (filled done (els.length + n), done.length + 1) =
      if done.length + els.length = index32Last then .error .constraintError
      else .ok (filled (done ++ els) n, done.length + els.length + 1) := by
  induction els generalizing done with
  | nil => exact absurd rfl some
  | cons a els ih =>
    rw [List.length_cons] at fits ⊢
    have step : assignNext (filled done (els.length + 1 + n), done.length + 1) a =
        if index32Last < done.length + 1 + 1 then .error .constraintError
        else .ok (filled (done ++ [a]) (els.length + n), done.length + 1 + 1) := by
      unfold assignNext
      dsimp only
      rw [if_neg (by rw [length_filled]; omega), Nat.add_sub_cancel, Nat.add_right_comm els.length, set_filled]
      rfl
    rw [List.foldlM_cons, step]
    by_cases isLast : els = []
    · subst isLast
      rw [List.length_nil, Nat.zero_add]
      by_cases full : done.length + 1 = index32Last
      · rw [if_pos full, if_pos (by omega)]
        rfl
      · rw [if_neg full, if_neg (by rw [List.length_nil] at fits; omega), Nat.zero_add]
        rfl
    have positive : 0 < els.length := List.length_pos_iff.mpr isLast
    have rest := ih (done ++ [a]) (by rw [List.length_append, List.length_singleton]; omega) isLast
    rw [List.length_append, List.length_singleton] at rest
    rw [if_neg (by omega)]
    show List.foldlM _ _ _ = _
    rw [rest, List.append_assoc, Nat.add_assoc done.length, Nat.add_comm 1]
    rfl

theorem assignLoop_eq (first : Nat) (element : Nat → Except Failure α) {count : Nat}
    (length : els.length = count) (each : ∀ k (inside : k < els.length), element (first + k) = .ok els[k]) (state : List (Option α) × Nat) :
    assignLoop first (first + count) element state = els.foldlM assignNext state := by
  unfold assignLoop
  rw [Nat.add_sub_cancel_left]
  induction els generalizing first count state with
  | nil =>
    obtain rfl : count = 0 := length.symm
    rfl
  | cons a els ih =>
    obtain ⟨count, rfl⟩ : ∃ m, count = m + 1 := ⟨els.length, length.symm⟩
    have here : element first = .ok a := each 0 (by simp)
    have rest := ih (first + 1) (Nat.succ.inj length) fun k inside => by
      have next := each (k + 1) (by simpa using inside)
      rw [Nat.add_right_comm, Nat.add_assoc]
      exact next
    rw [List.range'_succ, List.foldlM_cons, List.foldlM_cons, here]
    show (assignNext state a >>= _) = _
    cases assignNext state a with
    | error e => rfl
    | ok state' => exact rest state'

/-- All elements are assigned, unless there is no next place for the last one. -/
def assigned (els : List α) : Except Failure (List (Option α)) :=
  if els.length = index32Last then .error .constraintError else .ok (els.map some)

theorem assigned_eq (bounded : els.length ≤ index32Last) (nonempty : els ≠ []) :
    (do let (res, _) ← els.foldlM assignNext (List.replicate els.length none, 1); return res) = assigned els := by
  have all := foldlM_assignNext [] 0 (by rw [List.length_nil, Nat.zero_add]; exact bounded) nonempty
  rw [List.length_nil, Nat.zero_add, Nat.add_zero, filled_nil, List.nil_append, filled_zero] at all
  unfold assigned
  rw [all, Nat.zero_add]
  by_cases full : els.length = index32Last
  · rw [if_pos full, if_pos full]
    rfl
  · rw [if_neg full, if_neg full]
    rfl

theorem executeShift_eq (bounded : l.length ≤ index32Last) (nonempty : l ≠ []) (cnt : Nat) (dirLeft : Bool) (e : α) :
    executeShift l cnt dirLeft e = assigned (shifted l cnt dirLeft e) := by
  have length := length_shifted l cnt dirLeft e
  have positive : 0 < l.length := List.length_pos_iff.mpr nonempty
  have all := assigned_eq (length.trans_le bounded) (List.length_pos_iff.mp (length ▸ positive))
  rw [← all, length]
  unfold executeShift shifted
  dsimp only
  cases dirLeft with
  | true =>
    rw [if_pos rfl, if_pos rfl, List.foldlM_append]
    have fills : ∀ (n : Nat) (state : List (Option α) × Nat),
        assignLoop 0 n (fun _ => .ok e) state = (List.replicate n e).foldlM assignNext state := by
      intro n state
      have loop := assignLoop_eq 0 (fun _ => .ok e) (List.length_replicate (n := n) (a := e))
        (fun k inside => by rw [List.getElem_replicate]) state
      rw [Nat.zero_add] at loop
      exact loop
    by_cases small : cnt < l.length
    · rw [if_pos small]
      have moves := assignLoop_eq cnt (fun i => getV l (i + 1)) (List.length_drop (i := cnt) (l := l))
        (fun k inside => by
          rw [List.length_drop] at inside
          rw [getV_eq (by omega), List.getElem_drop])
        (List.replicate l.length none, 1)
      rw [Nat.add_sub_cancel' (Nat.le_of_lt small)] at moves
      rw [moves, Nat.min_eq_left (Nat.le_of_lt small)]
      cases (l.drop cnt).foldlM assignNext (List.replicate l.length none, 1) with
      | error e => rfl
      | ok state =>
        show (assignLoop 0 cnt _ state >>= _) = ((List.replicate cnt e).foldlM assignNext state >>= _)
        rw [fills]
    · rw [if_neg small, Nat.min_eq_right (Nat.le_of_not_lt small), List.drop_of_length_le (Nat.le_of_not_lt small)]
      show (assignLoop 0 l.length _ _ >>= _) = ((List.replicate l.length e).foldlM assignNext _ >>= _)
      rw [fills]
  | false =>
    rw [if_neg Bool.false_ne_true, if_neg Bool.false_ne_true, List.foldlM_append]
    have isMin : (if cnt > l.length then l.length else cnt) = min cnt l.length := by
      split <;> omega
    rw [isMin]
    obtain ⟨m, isM⟩ : ∃ m, min cnt l.length = m := ⟨_, rfl⟩
    have few : m ≤ l.length := by omega
    have same : l.take (l.length - cnt) = l.take (l.length - m) := by
      congr 1
      omega
    rw [isM, same]
    have fills := assignLoop_eq 0 (fun _ => .ok e) (List.length_replicate (n := m) (a := e))
      (fun k inside => by rw [List.getElem_replicate]) (List.replicate l.length none, 1)
    rw [Nat.zero_add] at fills
    have moves := fun state => assignLoop_eq m (fun i => getV l (i - m + 1))
      (List.length_take_of_le (Nat.sub_le l.length m))
      (fun k inside => by
        rw [List.length_take] at inside
        rw [Nat.add_sub_cancel_left, getV_eq (by omega), List.getElem_take])
      state
    rw [fills]
    cases (List.replicate m e).foldlM assignNext (List.replicate l.length none, 1) with
    | error e => rfl
    | ok state =>
      show (assignLoop m l.length _ state >>= _) = ((l.take (l.length - m)).foldlM assignNext state >>= _)
      rw [← moves state, Nat.add_sub_cancel' few]

theorem executeRotate_loop (k first : Nat) (inside : c < l.length) (state : List (Option α) × Nat) :
    (do
      let (s, _) ← (List.range' first k).foldlM
        (fun (s : (List (Option α) × Nat) × Nat) _ => do
          let e ← getV l (s.2 + 1)
          let state ← assignNext s.1 e
          return (state, if s.2 + 1 = l.length then 0 else s.2 + 1)) (state, c)
      return s) = (cycle l k c).foldlM assignNext state := by
  induction k generalizing c first state with
  | zero => rfl
  | succ k ih =>
    have next : (if c + 1 = l.length then 0 else c + 1) < l.length := by
      split <;> omega
    have read : getV l (c + 1) = .ok l[c] := getV_eq inside
    rw [List.range'_succ, List.foldlM_cons, cycle, List.getElem?_eq_getElem inside]
    show (((getV l (c + 1) >>= _) >>= _) >>= _) = (l[c] :: cycle l k _).foldlM assignNext state
    rw [read, List.foldlM_cons]
    show (((assignNext state l[c] >>= _) >>= _) >>= _) = _
    cases assignNext state l[c] with
    | error e => rfl
    | ok state' => exact ih (first + 1) next state'

theorem executeRotate_eq (bounded : l.length ≤ index32Last) {start : Nat} (inside : start < l.length) :
    executeRotate l start = assigned (l.rotate start) := by
  have length : (l.rotate start).length = l.length := List.length_rotate l start
  have some : l.rotate start ≠ [] := List.length_pos_iff.mp (by omega)
  have loop := executeRotate_loop l.length 1 inside (List.replicate l.length none, 1)
  rw [← assigned_eq (length.trans_le bounded) some, length, ← cycle_rotate inside, ← loop]
  unfold executeRotate
  dsimp only
  cases (List.range' 1 l.length).foldlM
    (fun (s : (List (Option α) × Nat) × Nat) _ => do
      let e ← getV l (s.2 + 1)
      let state ← assignNext s.1 e
      return (state, if s.2 + 1 = l.length then 0 else s.2 + 1))
    ((List.replicate l.length none, 1), start) with
  | error e => rfl
  | ok state => rfl

theorem magnitude_eq (count : VhdlInteger) (representable : count.value ≠ integerLow) (func : ShiftFunction) :
    magnitude count.value func =
      .ok (count.value.natAbs, if count.value < 0 then !dirLeft func else dirLeft func) := by
  have low := count.low
  have high := count.high
  unfold integerLow at representable
  unfold magnitude toNatural
  by_cases negative : count.value < 0
  · have same : (-count.value).toNat = count.value.natAbs := by omega
    rw [if_pos negative, if_pos negative, if_pos (by omega), same]
    rfl
  · have same : count.value.toNat = count.value.natAbs := by omega
    rw [if_neg negative, if_neg negative, if_pos (by omega), same]
    rfl

theorem magnitude_low (func : ShiftFunction) : magnitude integerLow func = .error .constraintError := rfl

theorem getNthElement_end (nonempty : l ≠ []) (fill : α) (dir : Bool) :
    getNthElement l (if dir then l.length - 1 else 0) = .ok (l.getD (if dir then l.length - 1 else 0) fill) := by
  have positive : 0 < l.length := List.length_pos_iff.mpr nonempty
  have inside : (if dir then l.length - 1 else 0) < l.length := by
    split <;> omega
  rw [getNthElement_eq inside, List.getD_eq_getElem?_getD, List.getElem?_eq_getElem inside]
  rfl

theorem getV_end (nonempty : l ≠ []) (fill : α) (dir : Bool) :
    getV l (if dir then l.length else 1) = .ok (l.getD (if dir then l.length - 1 else 0) fill) := by
  have positive : 0 < l.length := List.length_pos_iff.mpr nonempty
  have inside : (if dir then l.length - 1 else 0) < l.length := by
    split <;> omega
  have place : (if dir then l.length else 1) = (if dir then l.length - 1 else 0) + 1 := by
    split <;> omega
  rw [place, getV_eq inside, List.getD_eq_getElem?_getD, List.getElem?_eq_getElem inside]
  rfl

variable {count : VhdlInteger}

theorem evalShiftOperator_eq (fill : α) (left : ArrayValue α) (func : ShiftFunction)
    (moves : ¬ (count.value = 0 ∨ left.elements.length = 0)) (representable : count.value ≠ integerLow) :
    evalShiftOperator fill left count func = .ok ((func.apply fill count.value left.elements).map some) := by
  have nonempty : left.elements ≠ [] := fun isNil => moves (Or.inr (by rw [isNil]; rfl))
  have positive : 0 < left.elements.length := List.length_pos_iff.mpr nonempty
  rw [apply_eq nonempty]
  unfold evalShiftOperator
  dsimp only
  rw [if_neg moves, magnitude_eq count representable]
  generalize (if count.value < 0 then !dirLeft func else dirLeft func) = dir
  cases func with
  | sll | srl => exact evalShift_eq left.elements count.value.natAbs dir fill
  | sla | sra =>
    show (getNthElement left.elements (if dir then left.elements.length - 1 else 0) >>= _) = _
    rw [getNthElement_end nonempty fill]
    exact evalShift_eq left.elements count.value.natAbs dir _
  | rol | ror => exact evalRotate_eq (rotateStart_lt positive dir)

theorem executeShiftOperator_eq (fill : α) (left : ArrayValue α) (func : ShiftFunction)
    (moves : ¬ (count.value = 0 ∨ left.elements.length = 0)) (representable : count.value ≠ integerLow) :
    executeShiftOperator fill left count func = assigned (func.apply fill count.value left.elements) := by
  have nonempty : left.elements ≠ [] := fun isNil => moves (Or.inr (by rw [isNil]; rfl))
  have positive : 0 < left.elements.length := List.length_pos_iff.mpr nonempty
  rw [apply_eq nonempty]
  unfold executeShiftOperator
  dsimp only
  rw [if_neg moves, magnitude_eq count representable]
  generalize (if count.value < 0 then !dirLeft func else dirLeft func) = dir
  cases func with
  | sll | srl => exact executeShift_eq left.bounded nonempty count.value.natAbs dir fill
  | sla | sra =>
    show (getV left.elements (if dir then left.elements.length else 1) >>= _) = _
    rw [getV_end nonempty fill]
    exact executeShift_eq left.bounded nonempty count.value.natAbs dir _
  | rol | ror => exact executeRotate_eq left.bounded (rotateStart_lt positive dir)

theorem evalShiftOperator_low (fill : α) (left : ArrayValue α) (func : ShiftFunction)
    (nonempty : left.elements.length ≠ 0) (low : count.value = integerLow) :
    evalShiftOperator fill left count func = .error .constraintError := by
  have moves : ¬ (count.value = 0 ∨ left.elements.length = 0) := by
    rw [low]
    rintro (zero | empty)
    · exact absurd zero (by decide)
    · exact nonempty empty
  unfold evalShiftOperator
  dsimp only
  rw [if_neg moves, low, magnitude_low]
  rfl

/-- Both give the operator of the language exactly where nothing is moved, or the count is not `INTEGER'LOW` and the
array has not as many elements as an index can count. -/
theorem shifts_iff (fill : α) (left : ArrayValue α) (count : VhdlInteger) (func : ShiftFunction) :
    evalShiftOperator fill left count func = .ok ((func.apply fill count.value left.elements).map some) ∧
        executeShiftOperator fill left count func = .ok ((func.apply fill count.value left.elements).map some) ↔
      count.value = 0 ∨ left.elements.length = 0 ∨ count.value ≠ integerLow ∧ left.elements.length ≠ index32Last := by
  by_cases moves : count.value = 0 ∨ left.elements.length = 0
  · have same := func.apply_none fill moves
    have holds : count.value = 0 ∨ left.elements.length = 0 ∨
        count.value ≠ integerLow ∧ left.elements.length ≠ index32Last := by
      rcases moves with zero | empty
      · exact Or.inl zero
      · exact Or.inr (Or.inl empty)
    refine iff_of_true ?_ holds
    rw [same]
    constructor
    all_goals exact if_pos moves
  have condition : (count.value = 0 ∨ left.elements.length = 0 ∨
      count.value ≠ integerLow ∧ left.elements.length ≠ index32Last) ↔
      count.value ≠ integerLow ∧ left.elements.length ≠ index32Last := by
    rw [← or_assoc]
    exact or_iff_right moves
  rw [condition]
  by_cases representable : count.value = integerLow
  · have failed := evalShiftOperator_low fill left func (fun empty => moves (Or.inr empty)) representable
    rw [failed]
    exact iff_of_false (fun both => absurd both.1 (by simp)) fun both => both.1 representable
  have size : (func.apply fill count.value left.elements).length = left.elements.length := func.length_apply _ _ _
  rw [evalShiftOperator_eq fill left func moves representable, executeShiftOperator_eq fill left func moves representable]
  unfold assigned
  rw [size]
  by_cases full : left.elements.length = index32Last
  · rw [if_pos full]
    exact iff_of_false (fun both => absurd both.2 (by simp)) fun both => both.2 full
  · rw [if_neg full]
    exact iff_of_true ⟨rfl, rfl⟩ ⟨representable, full⟩

/-- One bit. -/
def oneBit : ArrayValue Bool := ⟨[true], by decide⟩

/-- `INTEGER'LOW` places. -/
def lowest : VhdlInteger := ⟨integerLow, by decide, by decide⟩

/-- `INTEGER'LOW` has no magnitude, in neither of them. -/
theorem low_not_shifted : ¬ (evalShiftOperator false oneBit lowest .sll =
          .ok ((ShiftFunction.sll.apply false lowest.value oneBit.elements).map some) ∧
        executeShiftOperator false oneBit lowest .sll =
          .ok ((ShiftFunction.sll.apply false lowest.value oneBit.elements).map some)) := by
  have failed : evalShiftOperator false oneBit lowest .sll = .error .constraintError := by decide
  rw [failed]
  exact fun both => absurd both.1 (by simp)

end Ghdl.ShiftOperators
