import Mathlib

/-!
# The octal and hexadecimal images of bit vectors

`Ghdl_BV_To_String` of the run time and `Execute_Bit_Vector_To_String` of the interpreter fill their results from the
right, with a digit for each group of bits. The first one counts the bits of a group, the second one compares the weight
of the next bit with the base.
-/

namespace Ghdl.Images

/-- `Hex_Chars`. -/
def hexChars : List Char :=
  ['0', '1', '2', '3', '4', '5', '6', '7', '8', '9', 'A', 'B', 'C', 'D', 'E', 'F']

/-- The loop over the bits from an index down to the first one. The digit of a group that ends is stored at POS, which
counts from 1; outside of the result it cannot be. -/
def digitsFrom (ends : Nat → Nat → Bool) (val : List Bool) :
    Nat → Nat → Nat → Nat → Nat → List (Option Char) → Option (List (Option Char))
  | 0, _, _, _, _, str => some str
  | i + 1, pos, v, count, weight, str =>
    let v := v + (val.getD i false).toNat * weight
    if ends (count + 1) (weight * 2) ∨ i = 0 then
      if 0 < pos ∧ pos ≤ str.length ∧ v < 16 then
        digitsFrom ends val i (pos - 1) 0 0 1 (str.set (pos - 1) hexChars[v]?)
      else none
    else digitsFrom ends val i pos v (count + 1) (weight * 2) str

/-- `Ghdl_BV_To_String`. Its lengths wrap. -/
def ghdlBvToString (val : List Bool) (logBase : Nat) : Option (List (Option Char)) :=
  let resLen := (val.length + logBase - 1) % 2 ^ 32 / logBase
  digitsFrom (fun shCount _ => shCount = logBase) val val.length resLen 0 0 1 (List.replicate resLen none)

/-- `Execute_Bit_Vector_To_String`. Its lengths must be of type `Natural`. -/
def executeBitVectorToString (val : List Bool) (logBase : Nat) : Option (List (Option Char)) :=
  if 2 ^ 31 ≤ val.length + logBase then none
  else
    let last := (val.length + logBase - 1) / logBase
    digitsFrom (fun _ n => n = 2 ^ logBase) val val.length last 0 0 1 (List.replicate last none)

/-- The number that digits denote, the leftmost one being the most significant one. -/
def number (base : Nat) : List Nat → Nat
  | [] => 0
  | d :: ds => d * base ^ ds.length + number base ds

/-- The value of a digit. -/
def digitValue (c : Char) : Nat := hexChars.idxOf c

variable {val : List Bool} {logBase i pos v count : Nat} {ends ends' : Nat → Nat → Bool}

theorem hexChars_value (small : v < 16) : ∃ c, hexChars[v]? = some c ∧ digitValue c = v := by
  have distinct : hexChars.Nodup := by simp [hexChars]
  have inside : v < hexChars.length := small
  exact ⟨hexChars[v], List.getElem?_eq_getElem inside, distinct.idxOf_getElem v inside⟩

theorem number_concat (base : Nat) (ds : List Nat) (d : Nat) : number base (ds ++ [d]) = number base ds * base + d := by
  induction ds with
  | nil => simp [number]
  | cons e ds ih =>
    rw [List.cons_append, number, ih, number, List.length_append, List.length_singleton, pow_succ]
    ring

/-- Two ways to tell the end of a group agree. -/
theorem digitsFrom_congr (agree : ∀ count < logBase, ends (count + 1) (2 ^ count * 2) = decide (count + 1 = logBase))
    (less : count < logBase) (str : List (Option Char)) :
    digitsFrom ends val i pos v count (2 ^ count) str =
      digitsFrom (fun shCount _ => shCount = logBase) val i pos v count (2 ^ count) str := by
  induction i generalizing pos v count str with
  | zero => rfl
  | succ i ih =>
    have fresh := @ih (pos - 1) 0 0 (by omega)
    rw [pow_zero] at fresh
    unfold digitsFrom
    dsimp only
    rw [agree count less, fresh]
    split
    · rfl
    · next goes => exact ih (by simp at goes; omega) str

/-- The loop stores the digits of the bits up to an index and of a group that is not full. -/
theorem digitsFrom_spec (octal : logBase = 3 ∨ logBase = 4) (inside : i ≤ val.length) (less : count < logBase)
    (small : v < 2 ^ count) (ended : i = 0 → count = 0) (isPos : pos = (i + count + logBase - 1) / logBase)
    (rest : List Char) : ∃ done : List Char,
      digitsFrom (fun shCount _ => shCount = logBase) val i pos v count (2 ^ count)
        (List.replicate pos none ++ rest.map some) = some ((done ++ rest).map some) ∧ done.length = pos ∧
      number (2 ^ logBase) (done.map digitValue) = number 2 ((val.take i).map Bool.toNat) * 2 ^ count + v := by
  induction i generalizing pos v count rest with
  | zero =>
    obtain rfl := ended rfl
    have none : pos = 0 := by
      rw [isPos]
      exact Nat.div_eq_of_lt (by omega)
    refine ⟨[], by simp [digitsFrom, none], none.symm, ?_⟩
    simp [number]
    omega
  | succ i ih =>
    have bit : val.take (i + 1) = val.take i ++ [val.getD i false] := by
      rw [List.getD_eq_getElem _ _ (by omega), List.take_append_getElem]
    rw [bit, List.map_append, List.map_singleton, number_concat]
    unfold digitsFrom
    dsimp only
    generalize val.getD i false = b
    have next : v + b.toNat * 2 ^ count < 2 ^ (count + 1) := by
      rw [pow_succ]
      cases b with
      | false | true => simp; omega
    split
    · next ends =>
      have ends : count + 1 = logBase ∨ i = 0 := by simpa using ends
      have some' : 0 < pos ∧ pos - 1 = (i + 0 + logBase - 1) / logBase := by
        rcases octal with rfl | rfl <;> omega
      have digit : v + b.toNat * 2 ^ count < 16 :=
        next.trans_le (Nat.pow_le_pow_right (by decide) (show count + 1 ≤ 4 by omega))
      obtain ⟨c, isC, value⟩ := hexChars_value digit
      obtain ⟨done, run, length, denoted⟩ := @ih (pos - 1) 0 0 (by omega) (by omega) (by simp) (fun _ => rfl) some'.2 (c :: rest)
      have stored : (List.replicate pos none ++ rest.map some).set (pos - 1) (some c) =
          List.replicate (pos - 1) none ++ (c :: rest).map some := by
        obtain ⟨pos, rfl⟩ := Nat.exists_eq_add_one.mpr some'.1
        rw [Nat.add_sub_cancel, List.replicate_succ', List.append_assoc, List.set_append_right _ _ (by simp)]
        simp
      refine ⟨done ++ [c], ?_, by rw [List.length_append, length, List.length_singleton]; omega, ?_⟩
      · rw [if_pos (by simp; omega), isC, stored]
        simpa using run
      rw [List.map_append, List.map_singleton, number_concat, denoted, value]
      rcases ends with rfl | rfl
      · rw [pow_succ]
        ring
      · simp [number, Nat.add_comm]
    · next goes =>
      simp only [decide_eq_true_eq, not_or] at goes
      obtain ⟨done, run, length, value⟩ := @ih pos _ (count + 1) (by omega) (by omega) next (fun zero => absurd zero goes.2)
        (by rw [isPos, show i + 1 + count = i + (count + 1) by omega]) rest
      refine ⟨done, ?_, length, ?_⟩
      · rw [← pow_succ]
        exact run
      · rw [value, pow_succ]
        ring

/-- The string of the run time and of the interpreter: both write it inside of the result, with a digit for each group
of bits, and it denotes the number of the vector. -/
structure Image (val : List Bool) (logBase : Nat) (str : List Char) : Prop where
  grt : ghdlBvToString val logBase = some (str.map some)
  simul : executeBitVectorToString val logBase = some (str.map some)
  enough : val.length ≤ str.length * logBase
  least : str.length * logBase < val.length + logBase
  value : number (2 ^ logBase) (str.map digitValue) = number 2 (val.map Bool.toNat)

/-- There is one if and only if the length of the vector and the bits of a digit together are at most `Natural'Last`. -/
theorem images_iff (octal : logBase = 3 ∨ logBase = 4) :
    (∃ str, Image val logBase str) ↔ val.length + logBase < 2 ^ 31 := by
  by_cases small : val.length + logBase < 2 ^ 31
  · refine iff_of_true ?_ small
    have grt : ghdlBvToString val logBase = digitsFrom (fun shCount _ => shCount = logBase) val val.length
        ((val.length + 0 + logBase - 1) / logBase) 0 0 (2 ^ 0)
        (List.replicate ((val.length + 0 + logBase - 1) / logBase) none ++ ([] : List Char).map some) := by
      rw [ghdlBvToString, Nat.mod_eq_of_lt (by omega)]
      simp
    have spec := @digitsFrom_spec val logBase val.length _ 0 0 octal (le_refl _) (by omega) (by simp) (fun _ => rfl) rfl []
    rw [← grt] at spec
    obtain ⟨str, run, length, value⟩ := spec
    refine ⟨str, by simpa using run, ?_, ?_, ?_, by simpa using value⟩
    · rw [executeBitVectorToString, if_neg (by omega)]
      have agree := @digitsFrom_congr val logBase val.length ((val.length + logBase - 1) / logBase) 0 0
        (fun _ n => n = 2 ^ logBase) (fun count _ => by rw [← pow_succ]; simp) (by omega)
        (List.replicate ((val.length + logBase - 1) / logBase) none)
      refine agree.trans ?_
      simpa [grt] using run
    all_goals
      rw [length]
      rcases octal with rfl | rfl <;> omega
  refine iff_of_false ?_ small
  intro ⟨str, image⟩
  have executed := image.simul
  rw [executeBitVectorToString, if_pos (by omega)] at executed
  cases executed

/-- The hexadecimal image of two bits. -/
theorem images_iff_two : (∃ str, Image [true, false] 4 str) ↔ [true, false].length + 4 < 2 ^ 31 :=
  images_iff (.inr rfl)

/-- The lengths of the interpreter overflow. -/
theorem images_overflow : ¬∃ str, Image (List.replicate (2 ^ 31 - 4) false) 4 str := by
  intro ⟨str, image⟩
  have executed := image.simul
  rw [executeBitVectorToString, List.length_replicate, if_pos (by decide)] at executed
  cases executed

end Ghdl.Images
