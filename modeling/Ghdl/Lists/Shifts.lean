import Mathlib.Data.List.Rotate

/-!
# Shifts and rotations of lists

A shift by several places is a shift by one place, done so many times. What is left after all of them is written down
in closed form here, both for the shifts that put a value in and for those that repeat the end of the list. A list that
is filled one element at a time is the list of its elements.
-/

namespace Shifts

variable {α β : Type*}

/-- Shift by one place to the left. -/
def left (fill : α) (l : List α) : List α := (l ++ [fill]).tail

/-- Shift by one place to the right. -/
def right (fill : α) (l : List α) : List α := (fill :: l).dropLast

/-- Shift by one place to the left; the last element stays. -/
def leftRepeat (l : List α) : List α := l.tail ++ l.getLast?.toList

/-- Shift by one place to the right; the first element stays. -/
def rightRepeat (l : List α) : List α := l.head?.toList ++ l.dropLast

/-- Rotate by one place to the left. -/
def rotateLeft (l : List α) : List α := l.tail ++ l.head?.toList

/-- Rotate by one place to the right. -/
def rotateRight (l : List α) : List α := l.getLast?.toList ++ l.dropLast

theorem iterate_left (fill : α) (n : Nat) (l : List α) : (left fill)^[n] l = (l ++ List.replicate n fill).drop n := by
  induction n with
  | zero => simp
  | succ n ih =>
    have long : n ≤ (l ++ List.replicate n fill).length := by simp
    rw [Function.iterate_succ_apply', ih, left, ← List.drop_append_of_le_length long, ← List.drop_one, List.drop_drop,
      List.append_assoc, ← List.replicate_succ']

theorem iterate_right (fill : α) (n : Nat) (l : List α) :
    (right fill)^[n] l = (List.replicate n fill ++ l).take l.length := by
  induction n with
  | zero => simp
  | succ n ih =>
    rw [Function.iterate_succ_apply', ih, right, List.dropLast_eq_take, List.length_cons, List.length_take,
      List.length_append, List.length_replicate, Nat.min_eq_left (by omega), Nat.add_sub_cancel]
    cases l with
    | nil => rfl
    | cons a l =>
      rw [List.length_cons, List.take_succ_cons, List.take_take, Nat.min_eq_left (Nat.le_succ _), List.replicate_succ,
        List.cons_append, List.take_succ_cons]

variable {l : List α} {a : α}

theorem leftRepeat_eq (isLast : l.getLast? = some a) : leftRepeat l = left a l := by
  cases l with
  | nil => exact absurd isLast (by simp)
  | cons b l =>
    unfold leftRepeat left
    rw [isLast]
    rfl

theorem rightRepeat_eq (isFirst : l.head? = some a) : rightRepeat l = right a l := by
  cases l with
  | nil => exact absurd isFirst (by simp)
  | cons b l =>
    unfold rightRepeat right
    rw [isFirst]
    rfl

theorem getLast?_left (fill : α) (nonempty : l ≠ []) : (left fill l).getLast? = some fill := by
  cases l with
  | nil => exact absurd rfl nonempty
  | cons b l => simp [left]

theorem head?_right (fill : α) (nonempty : l ≠ []) : (right fill l).head? = some fill := by
  cases l with
  | nil => exact absurd rfl nonempty
  | cons b l => simp [right]

theorem iterate_leftRepeat (isLast : l.getLast? = some a) (n : Nat) :
    leftRepeat^[n] l = (left a)^[n] l ∧ ((left a)^[n] l).getLast? = some a := by
  induction n with
  | zero => exact ⟨rfl, isLast⟩
  | succ n ih =>
    obtain ⟨same, stays⟩ := ih
    have nonempty : (left a)^[n] l ≠ [] := fun isNil => by simp [isNil] at stays
    rw [Function.iterate_succ_apply', Function.iterate_succ_apply', same, leftRepeat_eq stays]
    exact ⟨rfl, getLast?_left a nonempty⟩

theorem iterate_rightRepeat (isFirst : l.head? = some a) (n : Nat) :
    rightRepeat^[n] l = (right a)^[n] l ∧ ((right a)^[n] l).head? = some a := by
  induction n with
  | zero => exact ⟨rfl, isFirst⟩
  | succ n ih =>
    obtain ⟨same, stays⟩ := ih
    have nonempty : (right a)^[n] l ≠ [] := fun isNil => by simp [isNil] at stays
    rw [Function.iterate_succ_apply', Function.iterate_succ_apply', same, rightRepeat_eq stays]
    exact ⟨rfl, head?_right a nonempty⟩

theorem rotateLeft_eq (l : List α) : rotateLeft l = l.rotate 1 := by
  cases l with
  | nil => rfl
  | cons a l => simp [rotateLeft]

theorem iterate_rotateLeft (n : Nat) (l : List α) : rotateLeft^[n] l = l.rotate n := by
  induction n with
  | zero => simp
  | succ n ih => rw [Function.iterate_succ_apply', ih, rotateLeft_eq, List.rotate_rotate]

theorem rotateLeft_rotateRight (l : List α) : rotateLeft (rotateRight l) = l := by
  rcases List.eq_nil_or_concat l with rfl | ⟨l, a, rfl⟩
  · rfl
  · simp [rotateLeft, rotateRight]

theorem length_rotateRight (l : List α) : (rotateRight l).length = l.length := by
  rcases List.eq_nil_or_concat l with rfl | ⟨l, a, rfl⟩
  · rfl
  · simp [rotateRight]

theorem iterate_rotateRight (n : Nat) (l : List α) : rotateRight^[n] l = l.rotate (l.length - n % l.length) := by
  have length : ∀ n, (rotateRight^[n] l).length = l.length := by
    intro n
    induction n with
    | zero => rfl
    | succ n ih => rw [Function.iterate_succ_apply', length_rotateRight, ih]
  have back : ∀ n, (rotateRight^[n] l).rotate n = l := by
    intro n
    induction n with
    | zero => simp
    | succ n ih =>
      rw [Function.iterate_succ_apply', Nat.add_comm, ← List.rotate_rotate, ← rotateLeft_eq, rotateLeft_rotateRight, ih]
  apply List.rotate_injective n
  show (rotateRight^[n] l).rotate n = (l.rotate (l.length - n % l.length)).rotate n
  rw [back, List.rotate_rotate]
  rcases Nat.eq_zero_or_pos l.length with zero | positive
  · rw [List.eq_nil_of_length_eq_zero zero, List.rotate_nil]
  have small := Nat.mod_lt n positive
  have whole : l.length - n % l.length + n = l.length * (1 + n / l.length) := by
    have parts := Nat.mod_add_div n l.length
    rw [Nat.mul_add, Nat.mul_one]
    omega
  rw [whole, List.rotate_length_mul]

/-- Set so many elements from a position on. -/
def setNth (l : List α) (first count : Nat) (value : Nat → α) : List α :=
  (List.range count).foldl (fun l k => l.set (first + k) (value k)) l

theorem length_setNth (l : List α) (first count : Nat) (value : Nat → α) : (setNth l first count value).length = l.length := by
  unfold setNth
  induction count with
  | zero => rfl
  | succ n ih => rw [List.range_succ, List.foldl_append, List.foldl_cons, List.foldl_nil, List.length_set, ih]

theorem getElem?_setNth {first count : Nat} {value : Nat → α} (inside : first + count ≤ l.length) (i : Nat) :
    (setNth l first count value)[i]? = if first ≤ i ∧ i < first + count then some (value (i - first)) else l[i]? := by
  induction count with
  | zero => rw [if_neg (by omega), setNth, List.range_zero, List.foldl_nil]
  | succ n ih =>
    have step : setNth l first (n + 1) value = (setNth l first n value).set (first + n) (value n) := by
      unfold setNth
      rw [List.range_succ, List.foldl_append, List.foldl_cons, List.foldl_nil]
    rw [step, List.getElem?_set, length_setNth]
    by_cases here : first + n = i
    · rw [if_pos here, if_pos (by omega), if_pos (by omega)]
      congr 2
      omega
    · rw [if_neg here, ih (by omega)]
      by_cases before : first ≤ i ∧ i < first + n
      · rw [if_pos before, if_pos (by omega)]
      · rw [if_neg before, if_neg (by omega)]

end Shifts
