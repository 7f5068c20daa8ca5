import Ghdl.Fcvt.Arithmetic
import Ghdl.Numbers.Nearest
import Mathlib

/-!
# From a number of many digits to a significand

`Bignum_To_Fp` splices a significand of P bits out of the highest digits, and rounds it by the 32 bits
below. Only where these are exactly half of a unit are the digits below inspected: the loop goes down by
two digits in each turn but looks at one of them, and runs off the number when the count is even.
-/

namespace Ghdl.Fcvt

open Fallible Numbers

/-- `Shift_Left` of an `Unsigned_32`. -/
def shl32 (v : UInt32) (amount : Nat) : UInt32 := ⟨v.toBitVec <<< amount⟩

/-- `Shift_Right` of an `Unsigned_32`. -/
def shr32 (v : UInt32) (amount : Nat) : UInt32 := ⟨v.toBitVec >>> amount⟩

/-- `Shift_Left` of an `Unsigned_64`. -/
def shl64 (v : UInt64) (amount : Nat) : UInt64 := ⟨v.toBitVec <<< amount⟩

/-- `Shift_Right` of an `Unsigned_64`. -/
def shr64 (v : UInt64) (amount : Nat) : UInt64 := ⟨v.toBitVec >>> amount⟩

theorem shl32_toNat (v : UInt32) (amount : Nat) : (shl32 v amount).toNat = v.toNat * 2 ^ amount % 2 ^ 32 := by
  show (v.toBitVec <<< amount).toNat = _
  rw [BitVec.toNat_shiftLeft, Nat.shiftLeft_eq]
  rfl

theorem shr32_toNat (v : UInt32) (amount : Nat) : (shr32 v amount).toNat = v.toNat / 2 ^ amount := by
  show (v.toBitVec >>> amount).toNat = _
  rw [BitVec.toNat_ushiftRight, Nat.shiftRight_eq_div_pow]
  rfl

theorem shl64_toNat (v : UInt64) (amount : Nat) : (shl64 v amount).toNat = v.toNat * 2 ^ amount % 2 ^ 64 := by
  show (v.toBitVec <<< amount).toNat = _
  rw [BitVec.toNat_shiftLeft, Nat.shiftLeft_eq]
  rfl

theorem shr64_toNat (v : UInt64) (amount : Nat) : (shr64 v amount).toNat = v.toNat / 2 ^ amount := by
  show (v.toBitVec >>> amount).toNat = _
  rw [BitVec.toNat_ushiftRight, Nat.shiftRight_eq_div_pow]
  rfl

/-- A step of `Ffs`: T is shifted when the bits of the mask are 0. -/
def ffsStep (mask : UInt32) (count : Nat) (s : UInt32 × Nat) : UInt32 × Nat :=
  if s.1 &&& mask = 0 then (shl32 s.1 count, s.2 + count) else s

/-- `Ffs`: 32 less the count of leading zeros. -/
def ffs (v : UInt32) : Nat :=
  if v = 0 then 0
  else
    let s := ffsStep 0xffff0000 16 (v, 0)
    let s := ffsStep 0xff000000 8 s
    let s := ffsStep 0xf0000000 4 s
    let s := ffsStep 0xc0000000 2 s
    32 - (if s.1 &&& 0x80000000 = 0 then s.2 + 1 else s.2)

/-- T is V shifted by the zeros found so far, and the bits that are left have a 1 among them. -/
structure Leading (v : UInt32) (bits : Nat) (s : UInt32 × Nat) : Prop where
  shifted : s.1.toNat = v.toNat * 2 ^ s.2
  found : 2 ^ (32 - bits) ≤ s.1.toNat
  bounded : s.2 + bits ≤ 32

theorem and_mask_eq_zero {t mask : UInt32} {low : Nat} (counted : low ≤ 32)
    (is : mask.toNat = (2 ^ (32 - low) - 1) <<< low) : t &&& mask = 0 ↔ t.toNat < 2 ^ low := by
  have masked : (t &&& mask).toNat = (t.toNat / 2 ^ low % 2 ^ (32 - low)) <<< low := by
    rw [UInt32.toNat_and, is, ← Nat.and_two_pow_sub_one_eq_mod, ← Nat.shiftRight_eq_div_pow]
    apply Nat.eq_of_testBit_eq
    intro i
    simp only [Nat.testBit_and, Nat.testBit_shiftLeft, Nat.testBit_shiftRight]
    by_cases above : low ≤ i
    · simp [above]
    · simp [above]
  have small : t.toNat / 2 ^ low < 2 ^ (32 - low) := by
    rw [Nat.div_lt_iff_lt_mul (Nat.two_pow_pos low), ← pow_add, Nat.sub_add_cancel counted]
    exact t.toNat_lt
  rw [← UInt32.toNat_inj, masked, UInt32.toNat_zero, Nat.mod_eq_of_lt small, Nat.shiftLeft_eq, Nat.mul_eq_zero]
  constructor
  · rintro (none | zero)
    · exact (Nat.div_eq_zero_iff_lt (Nat.two_pow_pos low)).mp none
    · exact absurd zero (Nat.two_pow_pos low).ne'
  · exact fun less => Or.inl (Nat.div_eq_of_lt less)

theorem ffsStep_leading {v mask : UInt32} {count : Nat} {s : UInt32 × Nat}
    (leading : Leading v (count + count) s) (is : mask.toNat = (2 ^ count - 1) <<< (32 - count)) :
    Leading v count (ffsStep mask count s) := by
  have bounded := leading.bounded
  have masked : s.1 &&& mask = 0 ↔ s.1.toNat < 2 ^ (32 - count) :=
    and_mask_eq_zero (by omega) (by rw [is]; congr 3; omega)
  unfold ffsStep
  by_cases zeros : s.1 &&& mask = 0
  · rw [if_pos zeros]
    have small := masked.mp zeros
    have fits : s.1.toNat * 2 ^ count < 2 ^ 32 := by
      calc s.1.toNat * 2 ^ count < 2 ^ (32 - count) * 2 ^ count :=
            Nat.mul_lt_mul_of_pos_right small (Nat.two_pow_pos count)
        _ = 2 ^ 32 := by rw [← pow_add, Nat.sub_add_cancel (by omega)]
    have value : (shl32 s.1 count).toNat = s.1.toNat * 2 ^ count := by
      rw [shl32_toNat, Nat.mod_eq_of_lt fits]
    refine ⟨?_, ?_, by dsimp only; omega⟩
    · rw [value, leading.shifted, Nat.mul_assoc, ← pow_add]
    rw [value]
    calc 2 ^ (32 - count) = 2 ^ (32 - (count + count)) * 2 ^ count := by
          rw [← pow_add]
          congr 1
          omega
      _ ≤ s.1.toNat * 2 ^ count := Nat.mul_le_mul_right _ leading.found
  · rw [if_neg zeros]
    have large : ¬s.1.toNat < 2 ^ (32 - count) := fun less => zeros (masked.mpr less)
    exact ⟨leading.shifted, by omega, by omega⟩

/-- `Ffs` counts the bits of a number. -/
theorem ffs_eq (v : UInt32) : ffs v = v.toNat.size := by
  unfold ffs
  by_cases zero : v = 0
  · rw [if_pos zero, zero]
    rfl
  rw [if_neg zero]
  dsimp only
  have positive : 0 < v.toNat := Nat.pos_of_ne_zero fun is => zero (UInt32.toNat_inj.mp is)
  have start : Leading v (16 + 16) (v, 0) := ⟨(Nat.mul_one _).symm, positive, Nat.le_refl 32⟩
  have leading16 : Leading v (8 + 8) _ := @ffsStep_leading v 0xffff0000 16 _ start (by decide)
  have leading8 : Leading v (4 + 4) _ := @ffsStep_leading v 0xff000000 8 _ leading16 (by decide)
  have leading4 : Leading v (2 + 2) _ := @ffsStep_leading v 0xf0000000 4 _ leading8 (by decide)
  have leading2 : Leading v (1 + 1) _ := @ffsStep_leading v 0xc0000000 2 _ leading4 (by decide)
  have leading1 := @ffsStep_leading v 0x80000000 1 _ leading2 (by decide)
  generalize ffsStep 0xc0000000 2 _ = s at leading1 ⊢
  have count : (if s.1 &&& 0x80000000 = 0 then s.2 + 1 else s.2) = (ffsStep 0x80000000 1 s).2 := by
    unfold ffsStep
    split <;> rfl
  rw [count]
  obtain ⟨shifted, found, bounded⟩ := leading1
  generalize ffsStep 0x80000000 1 s = t at shifted found bounded ⊢
  have below := t.1.toNat_lt
  rw [shifted] at found below
  have upper : v.toNat < 2 ^ (32 - t.2) := by
    rw [← Nat.mul_lt_mul_right (Nat.two_pow_pos t.2), ← pow_add, Nat.sub_add_cancel (by omega)]
    exact below
  have lower : 2 ^ (32 - t.2 - 1) ≤ v.toNat := by
    rw [← Nat.mul_le_mul_right_iff (Nat.two_pow_pos t.2), ← pow_add]
    exact (Nat.pow_le_pow_right (by decide) (by omega)).trans found
  have atMost := Nat.size_le.mpr upper
  have atLeast := Nat.lt_size.mpr lower
  omega

theorem digitsValue_drop (v : List UInt32) (k : Nat) : digitsValue (v.drop k) = digitsValue v / (2 ^ 32) ^ k := by
  induction v generalizing k with
  | nil => simp
  | cons d v ih =>
    cases k with
    | zero => simp
    | succ k =>
      have hd := d.toNat_lt
      rw [List.drop_succ_cons, ih, digitsValue_cons, pow_succ' (2 ^ 32) k, ← Nat.div_div_eq_div_mul]
      congr 1
      omega

theorem digitsValue_div (v : List UInt32) (k : Nat) : digitsValue v / (2 ^ 32) ^ k =
      (v.getD k 0).toNat + 2 ^ 32 * (digitsValue v / (2 ^ 32) ^ (k + 1)) := by
  rw [← digitsValue_drop, ← digitsValue_drop]
  by_cases inside : k < v.length
  · rw [List.drop_eq_getElem_cons inside, digitsValue_cons, List.getD_eq_getElem _ _ inside]
  · rw [List.drop_eq_nil_of_le (by omega), List.drop_eq_nil_of_le (by omega), List.getD_eq_default _ _ (by omega)]
    rfl

theorem digitsValue_mod_eq_zero (v : List UInt32) (k : Nat) :
    digitsValue v % (2 ^ 32) ^ k = 0 ↔ ∀ i < k, v.getD i 0 = 0 := by
  induction v generalizing k with
  | nil => simp
  | cons d v ih =>
    cases k with
    | zero => simp [Nat.mod_one]
    | succ k =>
      have hd := d.toNat_lt
      rw [digitsValue_cons, pow_succ' (2 ^ 32) k, Nat.mod_mul]
      have low : (d.toNat + 2 ^ 32 * digitsValue v) % 2 ^ 32 = d.toNat := by omega
      have high : (d.toNat + 2 ^ 32 * digitsValue v) / 2 ^ 32 = digitsValue v := by omega
      rw [low, high, Nat.add_eq_zero_iff, Nat.mul_eq_zero, or_iff_right (by decide), ih]
      constructor
      · intro ⟨zero, zeros⟩ i inside
        cases i with
        | zero => exact UInt32.toNat_inj.mp zero
        | succ i => exact zeros i (by omega)
      · exact fun zeros => ⟨congrArg UInt32.toNat (zeros 0 (by omega)), fun i inside => zeros (i + 1) (by omega)⟩

namespace Bignum

/-- `V (I)`. -/
def digit (bn : Bignum) (i : Nat) : UInt32 := bn.v.getD (i - 1) 0

/-- What is spliced: the significand M, the bits R below it, and the digit MSW_Pos from which R is. -/
structure Spliced where
  m : UInt64
  r : UInt32
  mswPos : Nat
  deriving DecidableEq, Repr

/-- The loop that splices the digits below MSW_POS. -/
def spliceFrom (f : Bignum) : Nat → UInt64 → Nat → Spliced
  | 0, m, _ => ⟨m, 0, 0⟩
  | mswPos + 1, m, p1 =>
    let msw := f.digit (mswPos + 1)
    if p1 = 0 then ⟨m, msw, mswPos + 1⟩
    else if p1 < 32 then ⟨m ||| shr64 msw.toUInt64 (32 - p1), shl32 msw p1, mswPos + 1⟩
    else spliceFrom f mswPos (m ||| shl64 msw.toUInt64 (p1 - 32)) (p1 - 32)

/-- The first digit, and the loop when it has not enough bits. -/
def splice (f : Bignum) (p : Nat) : Spliced :=
  let msw := f.digit f.n
  let nbits := ffs msw
  if p < nbits then ⟨(shr32 msw (nbits - p)).toUInt64, shl32 msw (32 - (nbits - p)), f.n⟩
  else spliceFrom f (f.n - 1) (shl64 msw.toUInt64 (p - nbits)) (p - nbits)

/-- The loop for a tie: the digit below is inspected, and MSW_Pos goes down by two. -/
def tieCarry (f : Bignum) : Nat → Except FcvtError Bool
  | 0 => .error .assertion
  | 1 => .ok false
  | mswPos + 2 => if f.digit (mswPos + 1) ≠ 0 then .ok true else tieCarry f mswPos

/-- Whether the significand is rounded up. -/
def roundCarry (f : Bignum) (s : Spliced) : Except FcvtError Bool :=
  if 0x80000000 < s.r then .ok true
  else if s.r < 0x80000000 then .ok false
  else tieCarry f s.mswPos

/-- The significand and the exponent after rounding. -/
def addCarry (p : Nat) (carry : Bool) (m : UInt64) (e : Int) : UInt64 × Int :=
  if carry then (if shl64 1 p ≤ m + 1 then (shr64 (m + 1) 1, e + 1) else (m + 1, e)) else (m, e)

/-- `Bignum_To_Fp`. -/
def bignumToFp (f : Bignum) (p : Nat) : Except FcvtError (UInt64 × Int) :=
  if f.n = 0 then .ok (0, 0)
  else if f.digit f.n = 0 then .error .assertion
  else do
    let s := splice f p
    let carry ← roundCarry f s
    .ok (addCarry p carry s.m (ffs (f.digit f.n) + (f.n - 1 : Nat) * 32 - p))

/-- The bits are below `k` when the `k` lowest bits of the number are dropped, `k` positive: those of the
digit where they begin are R, and the digits below it are not in R. -/
structure Drops (f : Bignum) (k : Nat) (s : Spliced) : Prop where
  m : s.m.toNat = f.value / 2 ^ k
  word : 32 * (s.mswPos - 1) < k ∧ k ≤ 32 * s.mswPos
  r : s.r.toNat =
    f.value / (2 ^ 32) ^ (s.mswPos - 1) % 2 ^ (k - 32 * (s.mswPos - 1)) * 2 ^ (32 * s.mswPos - k)

theorem value_div (f : Bignum) (mswPos : Nat) : f.value / (2 ^ 32) ^ mswPos =
      (f.digit (mswPos + 1)).toNat + 2 ^ 32 * (f.value / (2 ^ 32) ^ (mswPos + 1)) :=
  digitsValue_div f.v mswPos

theorem word_pow (k : Nat) : (2 ^ 32) ^ k = 2 ^ (32 * k) := (pow_mul 2 32 k).symm

/-- Bits below others are added by an `or`. -/
theorem or_toNat {a b : UInt64} {x j : Nat} (high : a.toNat = x * 2 ^ j) (low : b.toNat < 2 ^ j) :
    (a ||| b).toNat = x * 2 ^ j + b.toNat := by
  rw [UInt64.toNat_or, high, Nat.mul_comm, Nat.two_pow_add_eq_or_of_lt low]

variable {f : Bignum} {mswPos p1 : Nat} {m : UInt64}

theorem splice_digit (exact' : m.toNat = f.value / (2 ^ 32) ^ (mswPos + 1) * 2 ^ p1)
    (room : (f.value / (2 ^ 32) ^ (mswPos + 1) + 1) * 2 ^ p1 ≤ 2 ^ 64) (whole : 32 ≤ p1) :
    (m ||| shl64 (f.digit (mswPos + 1)).toUInt64 (p1 - 32)).toNat =
        f.value / (2 ^ 32) ^ mswPos * 2 ^ (p1 - 32) ∧ (f.value / (2 ^ 32) ^ mswPos + 1) * 2 ^ (p1 - 32) ≤ 2 ^ 64 := by
  have split := value_div f mswPos
  have small := (f.digit (mswPos + 1)).toNat_lt
  have bits : 2 ^ p1 = 2 ^ 32 * 2 ^ (p1 - 32) := by rw [← pow_add, Nat.add_sub_cancel' whole]
  have below : (f.digit (mswPos + 1)).toNat * 2 ^ (p1 - 32) < 2 ^ p1 := by
    rw [bits]
    exact Nat.mul_lt_mul_of_pos_right small (Nat.two_pow_pos _)
  have fits : 2 ^ p1 ≤ 2 ^ 64 := (Nat.le_mul_of_pos_left _ (Nat.succ_pos _)).trans room
  have shifted : (shl64 (f.digit (mswPos + 1)).toUInt64 (p1 - 32)).toNat =
      (f.digit (mswPos + 1)).toNat * 2 ^ (p1 - 32) := by
    rw [shl64_toNat, UInt32.toNat_toUInt64, Nat.mod_eq_of_lt (below.trans_le fits)]
  constructor
  · rw [or_toNat exact' (shifted ▸ below), shifted, split, bits]
    ring
  · refine le_trans ?_ room
    rw [split, bits, ← Nat.mul_assoc]
    exact Nat.mul_le_mul_right _ (by omega)

theorem spliceFrom_whole (exact' : m.toNat = f.value / (2 ^ 32) ^ mswPos * 2 ^ p1)
    (room : (f.value / (2 ^ 32) ^ mswPos + 1) * 2 ^ p1 ≤ 2 ^ 64) (enough : 32 * mswPos ≤ p1) :
    ∃ m', spliceFrom f mswPos m p1 = ⟨m', 0, 0⟩ ∧ m'.toNat = f.value * 2 ^ (p1 - 32 * mswPos) := by
  induction mswPos generalizing m p1 with
  | zero => exact ⟨m, rfl, by simpa using exact'⟩
  | succ mswPos ih =>
    obtain ⟨exactNext, roomNext⟩ := splice_digit exact' room (by omega)
    obtain ⟨m', computed, value⟩ := ih exactNext roomNext (by omega)
    refine ⟨m', ?_, ?_⟩
    · unfold spliceFrom
      dsimp only
      rw [if_neg (by omega), if_neg (by omega), computed]
    · rw [value]
      congr 2
      omega

theorem spliceFrom_drops (exact' : m.toNat = f.value / (2 ^ 32) ^ mswPos * 2 ^ p1)
    (room : (f.value / (2 ^ 32) ^ mswPos + 1) * 2 ^ p1 ≤ 2 ^ 64) (more : p1 < 32 * mswPos) :
    Drops f (32 * mswPos - p1) (spliceFrom f mswPos m p1) := by
  induction mswPos generalizing m p1 with
  | zero => omega
  | succ mswPos ih =>
    unfold spliceFrom
    dsimp only
    by_cases whole : 32 ≤ p1
    · obtain ⟨exactNext, roomNext⟩ := splice_digit exact' room whole
      rw [if_neg (by omega), if_neg (by omega)]
      have drops := ih exactNext roomNext (by omega)
      rwa [show 32 * mswPos - (p1 - 32) = 32 * (mswPos + 1) - p1 by omega] at drops
    have split := value_div f mswPos
    have small := (f.digit (mswPos + 1)).toNat_lt
    have ends : 32 * (mswPos + 1) - p1 = 32 * mswPos + (32 - p1) := by omega
    have taken : 32 * (mswPos + 1) - p1 - 32 * (mswPos + 1 - 1) = 32 - p1 := by omega
    have left : 32 * (mswPos + 1) - (32 * (mswPos + 1) - p1) = p1 := by omega
    have quotient : f.value / 2 ^ (32 * (mswPos + 1) - p1) =
        f.value / (2 ^ 32) ^ mswPos / 2 ^ (32 - p1) := by
      rw [ends, pow_add, ← word_pow, Nat.div_div_eq_div_mul]
    by_cases none : p1 = 0
    · rw [if_pos none]
      subst none
      refine ⟨?_, by dsimp only; omega, ?_⟩
      · show m.toNat = _
        rw [exact', quotient, Nat.div_div_eq_div_mul, ← pow_succ]
        simp
      show (f.digit (mswPos + 1)).toNat = f.value / (2 ^ 32) ^ mswPos %
        2 ^ (32 * (mswPos + 1) - 0 - 32 * (mswPos + 1 - 1)) * 2 ^ (32 * (mswPos + 1) - (32 * (mswPos + 1) - 0))
      rw [taken, left, split]
      omega
    rw [if_neg none, if_pos (by omega)]
    have word : 2 ^ 32 = 2 ^ p1 * 2 ^ (32 - p1) := by
      rw [← pow_add, Nat.add_sub_cancel' (by omega)]
    refine ⟨?_, by dsimp only; omega, ?_⟩
    · have below : (shr64 (f.digit (mswPos + 1)).toUInt64 (32 - p1)).toNat < 2 ^ p1 := by
        rw [shr64_toNat, UInt32.toNat_toUInt64, Nat.div_lt_iff_lt_mul (Nat.two_pow_pos _), ← word]
        exact small
      show (m ||| shr64 (f.digit (mswPos + 1)).toUInt64 (32 - p1)).toNat = _
      rw [or_toNat exact' below, shr64_toNat, UInt32.toNat_toUInt64, quotient, split, word,
        Nat.mul_right_comm, Nat.add_mul_div_right _ _ (Nat.two_pow_pos _)]
      ring
    · show (shl32 (f.digit (mswPos + 1)) p1).toNat = f.value / (2 ^ 32) ^ mswPos %
        2 ^ (32 * (mswPos + 1) - p1 - 32 * (mswPos + 1 - 1)) * 2 ^ (32 * (mswPos + 1) - (32 * (mswPos + 1) - p1))
      rw [taken, left, split, shl32_toNat, word, Nat.mul_comm (2 ^ p1) (2 ^ (32 - p1)),
        Nat.mul_mod_mul_right, Nat.mul_assoc, Nat.add_mul_mod_self_left]

theorem value_div_last (some : f.n ≠ 0) : f.value / (2 ^ 32) ^ (f.n - 1) = (f.digit f.n).toNat := by
  have split := value_div f (f.n - 1)
  rw [Nat.sub_add_cancel (Nat.pos_of_ne_zero some)] at split
  have none : f.value / (2 ^ 32) ^ f.n = 0 := Nat.div_eq_of_lt (digitsValue_lt f.v)
  rw [split, none]
  rfl

theorem digit_last_ne (normal : f.v.getLast? ≠ some 0) (some' : f.n ≠ 0) : f.digit f.n ≠ 0 := by
  intro zero
  apply normal
  have inside : f.v.length - 1 < f.v.length := by
    unfold n at some'
    omega
  rw [List.getLast?_eq_getElem?, List.getElem?_eq_getElem inside]
  rw [digit, n, List.getD_eq_getElem _ _ inside] at zero
  rw [zero]

theorem size_value (normal : f.v.getLast? ≠ some 0) (some' : f.n ≠ 0) :
    f.value.size = ffs (f.digit f.n) + 32 * (f.n - 1) := by
  have last := value_div_last some'
  have positive : 0 < (f.digit f.n).toNat :=
    Nat.pos_of_ne_zero fun zero => digit_last_ne normal some' (UInt32.toNat_inj.mp zero)
  rw [ffs_eq]
  rw [word_pow] at last
  rw [← last] at positive ⊢
  have bits := Nat.lt_size_self (f.value / 2 ^ (32 * (f.n - 1)))
  have bitsPositive := Nat.size_pos.mpr positive
  have least : 2 ^ ((f.value / 2 ^ (32 * (f.n - 1))).size - 1) ≤ f.value / 2 ^ (32 * (f.n - 1)) :=
    Nat.lt_size.mp (by omega)
  rw [Nat.div_lt_iff_lt_mul (Nat.two_pow_pos _), ← pow_add] at bits
  rw [Nat.le_div_iff_mul_le (Nat.two_pow_pos _), ← pow_add] at least
  have atMost := Nat.size_le.mpr bits
  have atLeast := Nat.lt_size.mpr least
  omega

variable {p : Nat}

theorem first_digit {d : UInt32} {nbits : Nat} (bits : d.toNat < 2 ^ nbits) (small : p ≤ 64)
    (enough : nbits ≤ p) : (shl64 d.toUInt64 (p - nbits)).toNat = d.toNat * 2 ^ (p - nbits) ∧
      (d.toNat + 1) * 2 ^ (p - nbits) ≤ 2 ^ 64 := by
  have total : 2 ^ nbits * 2 ^ (p - nbits) = 2 ^ p := by rw [← pow_add, Nat.add_sub_cancel' enough]
  have fits : 2 ^ p ≤ 2 ^ 64 := Nat.pow_le_pow_right (by decide) small
  have room : (d.toNat + 1) * 2 ^ (p - nbits) ≤ 2 ^ 64 := (Nat.mul_le_mul_right _ bits).trans (total.le.trans fits)
  refine ⟨?_, room⟩
  rw [shl64_toNat, UInt32.toNat_toUInt64]
  refine Nat.mod_eq_of_lt (Nat.lt_of_lt_of_le ?_ room)
  exact Nat.mul_lt_mul_of_pos_right (Nat.lt_succ_self _) (Nat.two_pow_pos _)

theorem splice_drops (normal : f.v.getLast? ≠ some 0) (some' : f.n ≠ 0)
    (small : p ≤ 64) (more : p < f.value.size) : Drops f (f.value.size - p) (splice f p) := by
  have size := size_value normal some'
  have last := value_div_last some'
  have bits := Nat.lt_size_self (f.digit f.n).toNat
  have below := (f.digit f.n).toNat_lt
  have atMost : ffs (f.digit f.n) ≤ 32 := by
    rw [ffs_eq]
    exact Nat.size_le.mpr below
  rw [← ffs_eq] at bits
  rw [size] at more ⊢
  unfold splice
  dsimp only
  generalize ffs (f.digit f.n) = nbits at bits atMost more ⊢
  by_cases first : p < nbits
  · rw [if_pos first]
    have ends : nbits + 32 * (f.n - 1) - p = 32 * (f.n - 1) + (nbits - p) := by omega
    have taken : nbits + 32 * (f.n - 1) - p - 32 * (f.n - 1) = nbits - p := by omega
    have left : 32 * f.n - (nbits + 32 * (f.n - 1) - p) = 32 - (nbits - p) := by omega
    have word : 2 ^ 32 = 2 ^ (nbits - p) * 2 ^ (32 - (nbits - p)) := by
      rw [← pow_add, Nat.add_sub_cancel' (by omega)]
    refine ⟨?_, by dsimp only; omega, ?_⟩
    · show (shr32 (f.digit f.n) (nbits - p)).toUInt64.toNat = _
      rw [UInt32.toNat_toUInt64, shr32_toNat, ends, pow_add, ← word_pow, ← Nat.div_div_eq_div_mul, last]
    · show (shl32 (f.digit f.n) (32 - (nbits - p))).toNat = _
      dsimp only
      rw [taken, left, last, shl32_toNat, word, Nat.mul_mod_mul_right]
  · rw [if_neg first]
    obtain ⟨shifted, room⟩ := first_digit bits small (Nat.le_of_not_lt first)
    rw [show nbits + 32 * (f.n - 1) - p = 32 * (f.n - 1) - (p - nbits) by omega]
    exact spliceFrom_drops (last ▸ shifted) (last ▸ room) (by omega)

theorem splice_whole (normal : f.v.getLast? ≠ some 0) (some' : f.n ≠ 0) (small : p ≤ 64) (enough : f.value.size ≤ p) :
    ∃ m, splice f p = ⟨m, 0, 0⟩ ∧ m.toNat = f.value * 2 ^ (p - f.value.size) := by
  have size := size_value normal some'
  have last := value_div_last some'
  have bits := Nat.lt_size_self (f.digit f.n).toNat
  rw [← ffs_eq] at bits
  rw [size] at enough ⊢
  unfold splice
  dsimp only
  generalize ffs (f.digit f.n) = nbits at bits enough ⊢
  rw [if_neg (by omega)]
  obtain ⟨shifted, room⟩ := first_digit bits small (by omega)
  rw [show p - (nbits + 32 * (f.n - 1)) = p - nbits - 32 * (f.n - 1) by omega]
  exact spliceFrom_whole (last ▸ shifted) (last ▸ room) (by omega)

/-- The digits that the loop for a tie passes over are not inspected: those below are all 0 at an odd
distance, and one of the others is not, or the loop runs off the number. -/
def TieSkips (f : Bignum) (p : Nat) : Prop :=
  let k := f.value.size - p
  let word := (k - 1) / 32
  0 < k ∧ f.value / (2 ^ 32) ^ word % 2 ^ (k - 32 * word) = 2 ^ (k - 32 * word - 1) ∧
    (∀ i < word, (word - i) % 2 = 1 → f.v.getD i 0 = 0) ∧
    (word % 2 = 1 ∨ ∃ i < word, (word - i) % 2 = 0 ∧ f.v.getD i 0 ≠ 0)

theorem tieCarry_eq (f : Bignum) (word : Nat) :
    ((∃ i < word, (word - i) % 2 = 1 ∧ f.v.getD i 0 ≠ 0) → tieCarry f (word + 1) = .ok true) ∧
      ((∀ i < word, (word - i) % 2 = 1 → f.v.getD i 0 = 0) →
        tieCarry f (word + 1) = if word % 2 = 1 then .error .assertion else .ok false) := by
  induction word using Nat.strongRecOn with
  | ind word ih =>
    match word with
    | 0 => exact ⟨fun ⟨_, inside, _⟩ => absurd inside (Nat.not_lt_zero _), fun _ => rfl⟩
    | word + 1 =>
      have stepped : tieCarry f (word + 1 + 1) = if f.v.getD word 0 ≠ 0 then .ok true else tieCarry f word := rfl
      rw [stepped]
      by_cases zero : f.v.getD word 0 = 0
      · rw [if_neg (by simpa using zero)]
        match word with
        | 0 =>
          refine ⟨fun ⟨i, inside, _, nonzero⟩ => ?_, fun _ => rfl⟩
          rw [show i = 0 by omega] at nonzero
          exact absurd zero nonzero
        | word + 1 =>
          obtain ⟨found, ends⟩ := ih word (by omega)
          constructor
          · rintro ⟨i, inside, odd, nonzero⟩
            have distinct : i ≠ word + 1 := fun is => nonzero (is ▸ zero)
            exact found ⟨i, by omega, by omega, nonzero⟩
          · intro zeros
            rw [ends fun i inside odd => zeros i (by omega) (by omega)]
            congr 1
            rw [eq_iff_iff]
            omega
      · rw [if_pos zero]
        exact ⟨fun _ => rfl, fun zeros => absurd (zeros word (by omega) (by omega)) zero⟩

theorem dropped_eq {k word : Nat} (first : 32 * word < k) : f.value % 2 ^ k = f.value % (2 ^ 32) ^ word +
        (2 ^ 32) ^ word * (f.value / (2 ^ 32) ^ word % 2 ^ (k - 32 * word)) ∧
      2 ^ (k - 1) = (2 ^ 32) ^ word * 2 ^ (k - 32 * word - 1) := by
  constructor
  · rw [← Nat.mod_mul, word_pow, ← pow_add, Nat.add_sub_cancel' first.le]
  · rw [word_pow, ← pow_add]
    congr 1
    omega

theorem roundCarry_spec {s : Spliced} (drops : Drops f (f.value.size - p) s) :
    roundCarry f s = .ok (decide (2 ^ (f.value.size - p - 1) < f.value % 2 ^ (f.value.size - p))) ↔ ¬TieSkips f p := by
  obtain ⟨-, ⟨first, last⟩, bits⟩ := drops
  unfold TieSkips roundCarry
  dsimp only
  generalize f.value.size - p = k at first last bits ⊢
  obtain ⟨word, position⟩ : ∃ word, s.mswPos = word + 1 := ⟨s.mswPos - 1, by omega⟩
  rw [position, Nat.add_sub_cancel] at first
  rw [position, Nat.add_sub_cancel] at bits
  rw [position] at last ⊢
  have isWord : (k - 1) / 32 = word := by omega
  obtain ⟨rest, half⟩ := dropped_eq (f := f) first
  have lowZero := digitsValue_mod_eq_zero f.v word
  have below := Nat.mod_lt f.value (Nat.pow_pos (n := word) (show 0 < 2 ^ 32 by decide))
  rw [isWord, rest, half]
  change f.value % (2 ^ 32) ^ word = 0 ↔ _ at lowZero
  generalize f.value / (2 ^ 32) ^ word % 2 ^ (k - 32 * word) = mid at bits ⊢
  generalize f.value % (2 ^ 32) ^ word = low at below lowZero ⊢
  generalize (2 ^ 32) ^ word = weight at below ⊢
  have unit : 2 ^ 31 = 2 ^ (k - 32 * word - 1) * 2 ^ (32 * (word + 1) - k) := by
    rw [← pow_add]
    congr 1
    omega
  have scale : 0 < 2 ^ (32 * (word + 1) - k) := Nat.two_pow_pos _
  generalize 2 ^ (k - 32 * word - 1) = tie at unit ⊢
  generalize 2 ^ (32 * (word + 1) - k) = factor at bits unit scale
  have half' : (0x80000000 : UInt32).toNat = 2 ^ 31 := rfl
  rcases Nat.lt_trichotomy mid tie with less | rfl | more
  · have step : weight * (mid + 1) ≤ weight * tie := Nat.mul_le_mul_left weight less
    rw [Nat.mul_succ] at step
    have small : s.r < 0x80000000 := by
      rw [UInt32.lt_iff_toNat_lt, bits, half', unit]
      exact Nat.mul_lt_mul_of_pos_right less scale
    rw [if_neg (UInt32.lt_asymm small), if_pos small, decide_eq_false (by omega)]
    exact iff_of_true rfl fun skips => less.ne skips.2.1
  · have equal : s.r = 0x80000000 := by
      rw [← UInt32.toNat_inj, bits, half', unit]
    rw [equal, if_neg (by decide), if_neg (by decide)]
    obtain ⟨found, ends⟩ := tieCarry_eq f word
    have decides : decide (weight * mid < low + weight * mid) = decide (0 < low) := by
      congr 1
      rw [eq_iff_iff]
      omega
    rw [decides]
    by_cases seen : ∃ i < word, (word - i) % 2 = 1 ∧ f.v.getD i 0 ≠ 0
    · rw [found seen]
      obtain ⟨i, inside, odd, nonzero⟩ := seen
      have positive : low ≠ 0 := fun zero => nonzero (lowZero.mp zero i inside)
      rw [decide_eq_true (by omega)]
      exact iff_of_true rfl fun skips => nonzero (skips.2.2.1 i inside odd)
    have zeros : ∀ i < word, (word - i) % 2 = 1 → f.v.getD i 0 = 0 := fun i inside odd => by
      by_contra nonzero
      exact seen ⟨i, inside, odd, nonzero⟩
    rw [ends zeros]
    by_cases odd : word % 2 = 1
    · rw [if_pos odd]
      exact iff_of_false nofun fun skips => skips ⟨by omega, rfl, zeros, Or.inl odd⟩
    rw [if_neg odd]
    by_cases empty : low = 0
    · rw [decide_eq_false (by omega)]
      refine iff_of_true rfl ?_
      rintro ⟨-, -, -, isOdd | ⟨i, inside, -, nonzero⟩⟩
      · exact odd isOdd
      · exact nonzero (lowZero.mp empty i inside)
    rw [decide_eq_true (by omega)]
    refine iff_of_false nofun fun skips => skips ⟨by omega, rfl, zeros, Or.inr ?_⟩
    by_contra other
    refine empty (lowZero.mpr fun i inside => ?_)
    by_cases distance : (word - i) % 2 = 1
    · exact zeros i inside distance
    · by_contra nonzero
      exact other ⟨i, inside, by omega, nonzero⟩
  · have step : weight * (tie + 1) ≤ weight * mid := Nat.mul_le_mul_left weight more
    rw [Nat.mul_succ] at step
    have positive : 0 < weight := by omega
    have large : 0x80000000 < s.r := by
      rw [UInt32.lt_iff_toNat_lt, bits, half', unit]
      exact Nat.mul_lt_mul_of_pos_right more scale
    rw [if_pos large, decide_eq_true (by omega)]
    exact iff_of_true rfl fun skips => more.ne' skips.2.1

theorem addCarry_spec (positive : 0 < p) (small : p < 64) (bits : HasBits p m.toNat) (carry : Bool) (e : Int) :
    HasBits p (addCarry p carry m e).1.toNat ∧ ((addCarry p carry m e).1.toNat * 2 ^ (addCarry p carry m e).2 : ℚ) =
        ((m.toNat + carry.toNat : Nat) : ℚ) * 2 ^ e := by
  have high := bits.high
  have fits : 2 ^ p ≤ 2 ^ 63 := Nat.pow_le_pow_right (by decide) (by omega)
  have one : (shl64 1 p).toNat = 2 ^ p := by
    rw [shl64_toNat]
    exact (congrArg (· % 2 ^ 64) (Nat.one_mul _)).trans (Nat.mod_eq_of_lt (by omega))
  have next : (m + 1).toNat = m.toNat + 1 := by
    rw [UInt64.toNat_add]
    exact Nat.mod_eq_of_lt (by show m.toNat + 1 < 2 ^ 64; omega)
  have double : 2 ^ p = 2 ^ (p - 1) * 2 := by rw [← pow_succ, Nat.sub_add_cancel positive]
  unfold addCarry
  cases carry
  · exact ⟨bits, by simp⟩
  · by_cases out : shl64 1 p ≤ m + 1
    · rw [if_pos rfl, if_pos out]
      rw [UInt64.le_iff_toNat_le, one, next] at out
      have full : m.toNat + 1 = 2 ^ p := by omega
      have shifted : (shr64 (m + 1) 1).toNat = 2 ^ (p - 1) := by
        rw [shr64_toNat, next, full, double]
        omega
      refine ⟨⟨shifted.ge, by dsimp only; omega⟩, ?_⟩
      dsimp only [Bool.toNat_true]
      rw [shifted, full]
      exact carry_eq positive e
    · rw [if_pos rfl, if_neg out]
      rw [UInt64.le_iff_toNat_le, one, next] at out
      have low := bits.low
      exact ⟨⟨by dsimp only; omega, by dsimp only; omega⟩, by dsimp only [Bool.toNat_true]; rw [next]⟩

theorem bignumToFp_ok (normal : f.v.getLast? ≠ some 0) (some' : f.n ≠ 0) {e : Int} :
    f.bignumToFp p = .ok (m, e) ↔ ∃ carry, roundCarry f (splice f p) = .ok carry ∧
      addCarry p carry (splice f p).m (f.value.size - p) = (m, e) := by
  have exponent : (ffs (f.digit f.n) + (f.n - 1 : Nat) * 32 - p : Int) = f.value.size - p := by
    rw [size_value normal some']
    push_cast
    ring
  unfold bignumToFp
  rw [if_neg some', if_neg (digit_last_ne normal some'), exponent, bind_ok]
  constructor
  · exact fun ⟨carry, decided, added⟩ => ⟨carry, decided, Except.ok.inj added⟩
  · exact fun ⟨carry, decided, added⟩ => ⟨carry, decided, congrArg Except.ok added⟩

variable {v : Nat}

theorem hasBits_div (positive : 0 < p) (more : p < v.size) : HasBits p (v / 2 ^ (v.size - p)) := by
  have below := Nat.lt_size_self v
  have least : 2 ^ (v.size - 1) ≤ v := Nat.lt_size.mp (by omega)
  constructor
  · rw [Nat.le_div_iff_mul_le (Nat.two_pow_pos _), ← pow_add, show p - 1 + (v.size - p) = v.size - 1 by omega]
    exact least
  · rw [Nat.div_lt_iff_lt_mul (Nat.two_pow_pos _), ← pow_add, Nat.add_sub_cancel' more.le]
    exact below

theorem hasBits_mul (positive : 0 < v) (enough : v.size ≤ p) : HasBits p (v * 2 ^ (p - v.size)) := by
  have below := Nat.lt_size_self v
  have counted := Nat.size_pos.mpr positive
  have least : 2 ^ (v.size - 1) ≤ v := Nat.lt_size.mp (by omega)
  constructor
  · calc 2 ^ (p - 1) = 2 ^ (v.size - 1) * 2 ^ (p - v.size) := by
          rw [← pow_add]
          congr 1
          omega
      _ ≤ v * 2 ^ (p - v.size) := Nat.mul_le_mul_right _ least
  · calc v * 2 ^ (p - v.size) < 2 ^ v.size * 2 ^ (p - v.size) :=
          Nat.mul_lt_mul_of_pos_right below (Nat.two_pow_pos _)
      _ = 2 ^ p := by rw [← pow_add, Nat.add_sub_cancel' enough]

theorem nearest_div_iff {k : Nat} (positive : 0 < p) (bits : HasBits p (v / 2 ^ k)) (carry : Bool) :
    NearestDown (floats p) v (((v / 2 ^ k + carry.toNat : Nat) : ℚ) * 2 ^ (k : Int)) ↔
      carry = decide (2 ^ k < 2 * (v % 2 ^ k)) := by
  have unit : (0 : ℚ) < 2 ^ (k : Int) := by positivity
  have split : (v : ℚ) = (v / 2 ^ k : Nat) * 2 ^ (k : Int) + (v % 2 ^ k : Nat) := by
    rw [zpow_natCast]
    exact_mod_cast (Nat.div_add_mod' v (2 ^ k)).symm
  have rest : ((v % 2 ^ k : Nat) : ℚ) < 2 ^ (k : Int) := by
    rw [zpow_natCast]
    exact_mod_cast Nat.mod_lt v (Nat.two_pow_pos k)
  have half : (2 ^ (k : Int) : ℚ) < 2 * (v % 2 ^ k : Nat) ↔ 2 ^ k < 2 * (v % 2 ^ k) := by
    rw [zpow_natCast]
    exact_mod_cast Iff.rfl
  have restNonneg : (0 : ℚ) ≤ (v % 2 ^ k : Nat) := Nat.cast_nonneg _
  have adjacent := adjacent_floats positive bits k
  rw [adjacent.nearest_iff (by rw [split]; linarith) (by rw [split]; push_cast; linarith)]
  generalize v / 2 ^ k = m at split adjacent ⊢
  have above : ((m + 1 : Nat) : ℚ) * 2 ^ (k : Int) - v < v - m * 2 ^ (k : Int) ↔
      (2 ^ (k : Int) : ℚ) < 2 * (v % 2 ^ k : Nat) := by
    rw [split]
    push_cast
    constructor <;> intro <;> linarith
  by_cases more : 2 ^ k < 2 * (v % 2 ^ k)
  · rw [if_pos (above.mpr (half.mpr more)), decide_eq_true more]
    cases carry
    · exact iff_of_false adjacent.ordered.ne nofun
    · exact iff_of_true rfl rfl
  · rw [if_neg fun is => more (half.mp (above.mp is)), decide_eq_false more]
    cases carry
    · exact iff_of_true rfl rfl
    · exact iff_of_false adjacent.ordered.ne' nofun

theorem bignumToFp_nearest_iff {f : Bignum} (valid : f.Valid) (positive : 0 < f.value) {p : Nat}
    (some' : 0 < p) (small : p < 64) : (∃ m e, f.bignumToFp p = .ok (m, e) ∧ HasBits p m.toNat ∧
      NearestDown (floats p) f.value (m.toNat * 2 ^ e)) ↔ ¬TieSkips f p := by
  have digits : f.n ≠ 0 := (value_pos valid.normal).mp positive
  rcases Nat.lt_or_ge p f.value.size with more | enough
  · have drops := splice_drops valid.normal digits small.le more
    have bits : HasBits p (splice f p).m.toNat := drops.m.symm ▸ hasBits_div some' more
    rw [← roundCarry_spec drops]
    have exponent : (f.value.size - p : Int) = (f.value.size - p : Nat) := by omega
    have half : 2 ^ (f.value.size - p - 1) < f.value % 2 ^ (f.value.size - p) ↔
        2 ^ (f.value.size - p) < 2 * (f.value % 2 ^ (f.value.size - p)) := by
      have double : 2 ^ (f.value.size - p) = 2 ^ (f.value.size - p - 1) * 2 := by
        rw [← pow_succ]
        congr 1
        omega
      omega
    -- The number that is returned is the one below when there is no carry, and else the one above.
    have returned : ∀ carry, NearestDown (floats p) f.value
        ((addCarry p carry (splice f p).m (f.value.size - p)).1.toNat *
          2 ^ (addCarry p carry (splice f p).m (f.value.size - p)).2) ↔
        carry = decide (2 ^ (f.value.size - p - 1) < f.value % 2 ^ (f.value.size - p)) := by
      intro carry
      rw [(addCarry_spec some' small bits carry _).2, exponent, drops.m,
        nearest_div_iff some' (hasBits_div some' more), decide_eq_decide.mpr half]
    constructor
    · rintro ⟨m, e, converted, -, nearest⟩
      obtain ⟨carry, decided, added⟩ := (bignumToFp_ok valid.normal digits).mp converted
      have right := (returned carry).mp (by rw [added]; exact nearest)
      rw [decided, right]
    · intro decided
      exact ⟨_, _, (bignumToFp_ok valid.normal digits).mpr ⟨_, decided, rfl⟩,
        (addCarry_spec some' small bits _ _).1, (returned _).mpr rfl⟩
  · obtain ⟨m, spliced, value⟩ := splice_whole valid.normal digits small.le enough
    have bits : HasBits p m.toNat := value.symm ▸ hasBits_mul positive enough
    have decided : roundCarry f (splice f p) = .ok false := by
      rw [spliced]
      rfl
    refine iff_of_true ⟨m, f.value.size - p, ?_, bits, ?_⟩ fun skips => ?_
    · exact (bignumToFp_ok valid.normal digits).mpr ⟨false, decided, by rw [spliced]; rfl⟩
    · have exact' : (m.toNat : ℚ) * 2 ^ (f.value.size - p : Int) = f.value := by
        rw [value, show (f.value.size - p : Int) = -((p - f.value.size : Nat) : Int) by omega, zpow_neg, zpow_natCast]
        push_cast
        field_simp
      have adjacent := adjacent_floats some' bits (f.value.size - p)
      rw [exact'] at adjacent ⊢
      have ordered := adjacent.ordered
      exact adjacent.down (le_refl _) (by linarith)
    · have dropped := skips.1
      omega

/-- `Bignum_To_Fp` returns the significand and the exponent of the nearest number, of the lower one for
a tie, unless the loop for a tie skips digits. -/
theorem bignumToFp_rounds_iff {f : Bignum} (valid : f.Valid) (positive : 0 < f.value) {p : Nat}
    (some' : 0 < p) (small : p < 64) : (∃ m e, f.bignumToFp p = .ok (m, e) ∧ HasBits p m.toNat ∧
      NearestDown (floats p) f.value (m.toNat * 2 ^ e)) ↔ ¬TieSkips f p :=
  bignumToFp_nearest_iff valid positive some' small

/-- Three bits are dropped, and are less than a half. -/
theorem bignumToFp_rounds_down : ∃ m e, bignumToFp ⟨[3, 0x800000]⟩ 53 = .ok (m, e) ∧ HasBits 53 m.toNat ∧
      NearestDown (floats 53) (value ⟨[3, 0x800000]⟩) (m.toNat * 2 ^ e) :=
  (bignumToFp_rounds_iff ⟨by decide, by decide⟩ (by decide) (by decide) (by decide)).mpr
    fun skips => absurd skips.2.1 (by decide +kernel)

/-- A number above a half by its last digit, which is passed over, is rounded down. For one that is a half
the loop runs off the digits. -/
theorem bignumToFp_skips_digits :
    let above : Bignum := ⟨[1, 0, 0x80000000, 1, 0x100000]⟩
    let half : Bignum := ⟨[0, 0x80000000, 1, 0x100000]⟩
    (above.isValid = true ∧ 0 < above.value ∧
      ¬∃ m e, above.bignumToFp 53 = .ok (m, e) ∧ HasBits 53 m.toNat ∧
        NearestDown (floats 53) above.value (m.toNat * 2 ^ e)) ∧
    half.isValid = true ∧ 0 < half.value ∧ half.bignumToFp 53 = .error .assertion := by
  refine ⟨⟨by decide, by decide, ?_⟩, by decide, by decide, by decide +kernel⟩
  rintro ⟨m, e, converted, -, nearest⟩
  have returned : bignumToFp ⟨[1, 0, 0x80000000, 1, 0x100000]⟩ 53 = .ok (2 ^ 52 + 1, 96) := by
    decide +kernel
  rw [returned, Except.ok.injEq, Prod.mk.injEq] at converted
  obtain ⟨rfl, rfl⟩ := converted
  have value : value ⟨[1, 0, 0x80000000, 1, 0x100000]⟩ = (2 ^ 52 + 1) * 2 ^ 96 + 2 ^ 95 + 1 := by
    decide +kernel
  have significand : (2 ^ 52 + 1 : UInt64).toNat = 2 ^ 52 + 1 := by decide
  have closer := nearest.2 _ (HasBits.mem_floats (m := 2 ^ 52 + 2) ⟨by decide, by decide⟩ 96)
  rw [value, significand] at closer
  norm_num [abs_of_pos, abs_of_neg] at closer

end Bignum

end Ghdl.Fcvt
