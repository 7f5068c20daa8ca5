import Ghdl.System.Fallible
import Ghdl.Vhdl.Evaluation
import Mathlib

/-!
# The ranges of the interpreter

`Create_Range_Value` computes the length of a range when it is elaborated. The length of an integer range is capped,
and its computation has a special case for the one range whose length is the largest.
-/

namespace Ghdl.Simul

open Evaluation (Direction Failure)
open Fallible

/-- `Iir_Value_Literal`, for the kinds of `Iir_Value_Discrete`. -/
inductive Discrete
  | b1 (value : Bool)
  | e8 (value : UInt8)
  | e32 (value : UInt32)
  | i64 (value : Int64)
deriving DecidableEq

/-- The range of `Iir_Value_Literal`. -/
structure RangeValue where
  left : Discrete
  right : Discrete
  dir : Direction
  length : Nat
deriving DecidableEq

/-- `Iir_Index32'Last`. -/
def indexLast : Nat := 2 ^ 31 - 1

/-- The result of an operation on `Ghdl_I64`. Without the checks of the language it wraps. -/
def integer64 (checks : Bool) (n : Int) : Except Failure Int :=
  if -2 ^ 63 ≤ n ∧ n < 2 ^ 63 then .ok n else if checks then .error .constraintError else .ok (n.bmod (2 ^ 64))

/-- `Low`. -/
def low {α : Type} (left right : α) : Direction → α
  | .iirTo => left
  | .iirDownto => right

/-- `High`. -/
def high {α : Type} (left right : α) : Direction → α
  | .iirTo => right
  | .iirDownto => left

/-- `Len` of an integer range. -/
def integerLength (checks : Bool) (low high : Int64) : Except Failure Nat :=
  if high = Int64.maxValue ∧ low = Int64.minValue then .ok indexLast
  else do
    let l ← integer64 checks (high.toInt - low.toInt)
    if (indexLast : Int) ≤ l then .ok indexLast
    else
      let l ← integer64 checks (l + 1)
      if l < 0 then .ok 0 else .ok l.toNat

/-- `Create_Range_Value`. -/
def createRangeValue (checks : Bool) (left right : Discrete) (dir : Direction) : Except Failure RangeValue := do
  let length ← match low left right dir, high left right dir with
    | .b1 low, .b1 high => .ok (if low ≤ high then high.toNat - low.toNat + 1 else 0)
    | .e8 low, .e8 high => .ok (if low ≤ high then high.toNat - low.toNat + 1 else 0)
    | .e32 low, .e32 high =>
      if ¬low ≤ high then .ok 0
      else if (high - low + 1).toNat ≤ indexLast then .ok (high - low + 1).toNat
      else .error .constraintError
    | .i64 low, .i64 high => integerLength checks low high
    | _, _ => .error .constraintError
  .ok ⟨left, right, dir, length⟩

/-- The comparisons of one kind of values. -/
def order {α : Type} [LT α] [DecidableLT α] [DecidableEq α] (left right : α) : Ordering :=
  if left < right then .lt else if left = right then .eq else .gt

/-- `Compare_Value`. -/
def compareValue : Discrete → Discrete → Except Failure Ordering
  | .b1 left, .b1 right => .ok (order left right)
  | .e8 left, .e8 right => .ok (order left right)
  | .e32 left, .e32 right => .ok (order left right)
  | .i64 left, .i64 right => .ok (order left right)
  | _, _ => .error .constraintError

/-- `Is_Null_Range`. -/
def isNullRange (arange : RangeValue) : Except Failure Bool := do
  let cmp ← compareValue arange.left arange.right
  match arange.dir with
  | .iirTo => .ok (cmp = .gt)
  | .iirDownto => .ok (cmp = .lt)

/-- The length of the integer range is the number of its values, capped, and it is 0 if the range is null. -/
structure Exact (checks : Bool) (left right : Int64) (dir : Direction) (range : RangeValue) : Prop where
  created : createRangeValue checks (.i64 left) (.i64 right) dir = .ok range
  length : range.length = min (Finset.Icc (low left right dir).toInt (high left right dir).toInt).card indexLast
  null : isNullRange range = .ok (range.length = 0)

/-- The difference of the bounds is a 64-bit number, or they are the two extremes. -/
def Fits (low high : Int64) : Prop :=
  (-2 ^ 63 ≤ high.toInt - low.toInt ∧ high.toInt - low.toInt < 2 ^ 63) ∨ (high = Int64.maxValue ∧ low = Int64.minValue)

variable {checks : Bool} {left right : Int64} {dir : Direction}

theorem isNullRange_eq (length : Nat) : isNullRange ⟨.i64 left, .i64 right, dir, length⟩ =
    .ok (decide ((high left right dir).toInt < (low left right dir).toInt)) := by
  have greater : order left right = .gt ↔ right.toInt < left.toInt := by
    simp only [order, Int64.lt_iff_toInt_lt, ← Int64.toInt_inj]
    split
    · simp; omega
    · split <;> simp <;> omega
  have less : order left right = .lt ↔ left.toInt < right.toInt := by
    simp only [order, Int64.lt_iff_toInt_lt]
    split
    · next less => simp [less]
    · next more => split <;> simpa using more
  cases dir with
  | iirTo => exact congrArg _ (decide_eq_decide.mpr greater)
  | iirDownto => exact congrArg _ (decide_eq_decide.mpr less)

/-- The length is the capped number of values if and only if the difference fits, or is the special case. -/
theorem integerLength_iff {low high : Int64} :
    integerLength checks low high = .ok (min (Finset.Icc low.toInt high.toInt).card indexLast) ↔ Fits low high := by
  have lowLeast := low.le_toInt
  have lowMost := low.toInt_lt
  have highLeast := high.le_toInt
  have highMost := high.toInt_lt
  unfold integerLength Fits
  rw [Int.card_Icc]
  by_cases extreme : high = Int64.maxValue ∧ low = Int64.minValue
  · rw [if_pos extreme, extreme.1, extreme.2]
    exact iff_of_true rfl (.inr ⟨rfl, rfl⟩)
  rw [if_neg extreme, or_iff_left extreme]
  have last : indexLast = 2 ^ 31 - 1 := rfl
  generalize low.toInt = l, high.toInt = h, indexLast = most at *
  unfold integer64
  by_cases fits : -2 ^ 63 ≤ h - l ∧ h - l < 2 ^ 63
  · rw [if_pos fits]
    refine iff_of_true ?_ fits
    show (if _ then _ else _) = _
    split
    · exact congrArg _ (by omega)
    · rw [if_pos (by omega)]
      show (if _ then _ else _) = _
      split <;> exact congrArg _ (by omega)
  rw [if_neg fits]
  refine iff_of_false (fun wrong => ?_) fits
  cases checks with
  | true => cases wrong
  | false =>
    -- The wrapped difference has the other sign.
    have wrapped : (h - l).bmod (2 ^ 64) = h - l - 2 ^ 64 ∧ 0 ≤ h - l ∨
        (h - l).bmod (2 ^ 64) = h - l + 2 ^ 64 ∧ h - l < 0 := by
      rw [Int.bmod_def]
      split <;> omega
    generalize (h - l).bmod (2 ^ 64) = w at *
    replace wrong : (if (most : Int) ≤ w then _ else _) = Except.ok _ := wrong
    split at wrong
    · have same := Except.ok.inj wrong
      omega
    · rw [if_pos (by omega)] at wrong
      replace wrong : (if w + 1 < 0 then _ else _) = Except.ok _ := wrong
      split at wrong <;> have same := Except.ok.inj wrong <;> omega

/-- For the integer ranges the length is right if and only if the difference of the bounds is a 64-bit number or
they are the two extremes, with the checks of the language and without. -/
theorem createRangeValue_exact_iff : (∃ range, Exact checks left right dir range) ↔
    Fits (low left right dir) (high left right dir) := by
  have created : createRangeValue checks (.i64 left) (.i64 right) dir = (do
      .ok ⟨.i64 left, .i64 right, dir, ← integerLength checks (low left right dir) (high left right dir)⟩) := by
    cases dir with
    | iirTo | iirDownto => rfl
  rw [← integerLength_iff]
  constructor
  · intro ⟨range, exact⟩
    obtain ⟨length, computed, made⟩ := bind_ok.mp (created.symm.trans exact.created)
    rw [computed, ← exact.length, ← Except.ok.inj made]
  · intro length
    rw [length] at created
    refine ⟨_, created, rfl, ?_⟩
    rw [isNullRange_eq, Int.card_Icc]
    exact congrArg _ (decide_eq_decide.mpr (by simp only [indexLast]; omega))

/-- The range from -1 to the last integer. -/
theorem createRangeValue_inexact :
    ¬∀ checks left right dir, ∃ range, Exact checks left right dir range := by
  intro all
  obtain ⟨range, exact⟩ := all true (-1) Int64.maxValue .iirTo
  have fails : createRangeValue true (.i64 (-1)) (.i64 Int64.maxValue) .iirTo = .error .constraintError := by decide
  cases fails.symm.trans exact.created

end Ghdl.Simul
