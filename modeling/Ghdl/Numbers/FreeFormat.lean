import Mathlib.Algebra.Order.Field.Power
import Mathlib.Tactic.FieldSimp
import Mathlib.Tactic.Linarith
import Mathlib.Tactic.Positivity
import Mathlib.Tactic.Ring

/-!
# Digits for an interval

The digits of the quotient `r / s` are generated until what is left is so close to the number that they, the
last one rounded, denote a number between `(r - mm) / s` and `(r + mp) / s`. The digits denote such a number,
and no number with fewer digits is between the two bounds.
-/

namespace Ghdl.Numbers

/-- The number that digits denote after the point. -/
def fraction (base : ℕ) : List ℕ → ℚ
  | [] => 0
  | d :: ds => (d + fraction base ds) / base

/-- The last digit: the one of the quotient or the next one, the nearer one if both denote a number between
the bounds. -/
def lastDigit (s r mp mm : ℕ) : ℕ :=
  if r % s < mm ∧ ¬s < r % s + mp then r / s
  else if ¬r % s < mm ∧ s < r % s + mp then r / s + 1
  else if s < r % s * 2 then r / s + 1 else r / s

/-- The digits that are generated. -/
inductive FreeFormat (base s : ℕ) : ℕ → ℕ → ℕ → List ℕ → Prop
  /-- What is left is less than one of the gaps. -/
  | last {r mp mm : ℕ} (stops : r % s < mm ∨ s < r % s + mp) :
      FreeFormat base s r mp mm [lastDigit s r mp mm]
  /-- Another digit is needed. -/
  | next {r mp mm : ℕ} {ds : List ℕ} (goes : ¬(r % s < mm ∨ s < r % s + mp))
      (rest : FreeFormat base s (r % s * base) (mp * base) (mm * base) ds) :
      FreeFormat base s r mp mm (r / s :: ds)

variable {base s r mp mm : ℕ} {ds : List ℕ}

theorem exists_fraction_eq (positive : 0 < base) (digits : ∀ d ∈ ds, d < base) :
    ∃ m < base ^ ds.length, fraction base ds = m / base ^ ds.length := by
  have base' : (base : ℚ) ≠ 0 := by positivity
  induction ds with
  | nil => exact ⟨0, by simp, by simp [fraction]⟩
  | cons d ds ih =>
    obtain ⟨m, less, eq⟩ := ih fun e inside => digits e (List.mem_cons_of_mem d inside)
    have small := digits d List.mem_cons_self
    refine ⟨d * base ^ ds.length + m, ?_, ?_⟩
    · calc d * base ^ ds.length + m < d * base ^ ds.length + base ^ ds.length := by omega
        _ = (d + 1) * base ^ ds.length := by ring
        _ ≤ base * base ^ ds.length := Nat.mul_le_mul_right _ small
        _ = base ^ (d :: ds).length := by rw [List.length_cons, pow_succ, Nat.mul_comm]
    · rw [fraction, eq, List.length_cons, pow_succ]
      push_cast
      field_simp

namespace FreeFormat

theorem lastDigit_cases (positive : 0 < s) (gap : 0 < mp) (stops : r % s < mm ∨ s < r % s + mp) :
    (lastDigit s r mp mm = r / s ∨ lastDigit s r mp mm = r / s + 1 ∧ s < r % s + mp) ∧
      r < lastDigit s r mp mm * s + mm ∧ lastDigit s r mp mm * s < r + mp := by
  have split := Nat.div_add_mod r s
  have rest := Nat.mod_lt r positive
  have low : r / s * s = s * (r / s) := Nat.mul_comm _ _
  have high : (r / s + 1) * s = s * (r / s) + s := by ring
  unfold lastDigit
  split
  · exact ⟨.inl rfl, by omega, by omega⟩
  · split
    · exact ⟨.inr ⟨rfl, by omega⟩, by omega, by omega⟩
    · split
      · exact ⟨.inr ⟨rfl, by omega⟩, by omega, by omega⟩
      · exact ⟨.inl rfl, by omega, by omega⟩

theorem digits_lt (free : FreeFormat base s r mp mm ds) (positive : 0 < s) (gap : 0 < mp)
    (base' : 0 < base) (bound : r + mp ≤ base * s) : ∀ d ∈ ds, d < base := by
  induction free with
  | @last r mp mm stops =>
    obtain ⟨digit, -, below⟩ := lastDigit_cases positive gap stops
    intro d inside
    rw [List.mem_singleton.mp inside]
    rcases digit with same | ⟨next, more⟩
    · rw [same]
      exact Nat.div_lt_of_lt_mul (by rw [Nat.mul_comm]; omega)
    · have total : lastDigit s r mp mm * s < base * s := by omega
      exact Nat.lt_of_mul_lt_mul_right total
  | @next r mp mm ds goes _ ih =>
    intro d inside
    rcases List.mem_cons.mp inside with rfl | later
    · exact Nat.div_lt_of_lt_mul (by rw [Nat.mul_comm]; omega)
    · refine ih (Nat.mul_pos gap base') ?_ d later
      rw [← Nat.add_mul, Nat.mul_comm]
      exact Nat.mul_le_mul_left base (by omega)

theorem quotient_eq (positive : 0 < s) (r : ℕ) : (r : ℚ) / s = (r / s : ℕ) + (r % s : ℕ) / s := by
  have split : ((s * (r / s) + r % s : ℕ) : ℚ) = r := by rw [Nat.div_add_mod]
  have nonzero : (s : ℚ) ≠ 0 := by positivity
  rw [← split]
  push_cast
  field_simp

section

variable (free : FreeFormat base s r mp mm ds)
include free

/-- The digits denote a number between the bounds. -/
theorem between (positive : 0 < s) (gap : 0 < mp) (base' : 0 < base) :
    ((r : ℚ) - mm) / s < fraction base ds * base ∧ fraction base ds * base < ((r : ℚ) + mp) / s := by
  have s' : (0 : ℚ) < s := by exact_mod_cast positive
  have b' : (0 : ℚ) < base := by exact_mod_cast base'
  induction free with
  | @last r mp mm stops =>
    obtain ⟨-, low, high⟩ := lastDigit_cases positive gap stops
    have same : fraction base [lastDigit s r mp mm] * base = lastDigit s r mp mm := by
      simp only [fraction, add_zero]
      field_simp
    have low : (r : ℚ) < lastDigit s r mp mm * s + mm := by exact_mod_cast low
    have high : (lastDigit s r mp mm * s : ℚ) < r + mp := by exact_mod_cast high
    rw [same, div_lt_iff₀ s', lt_div_iff₀ s']
    exact ⟨by linarith, high⟩
  | @next r mp mm ds goes _ ih =>
    obtain ⟨low, high⟩ := ih (Nat.mul_pos gap base')
    push_cast at low high
    have same : fraction base (r / s :: ds) * base = (r / s : ℕ) + fraction base ds := by
      simp only [fraction]
      field_simp
    rw [same]
    rw [show (((r % s : ℕ) : ℚ) * base - mm * base) / s = ((r % s : ℕ) - mm) / s * base by ring] at low
    rw [show (((r % s : ℕ) : ℚ) * base + mp * base) / s = ((r % s : ℕ) + mp) / s * base by ring] at high
    have low := lt_of_mul_lt_mul_right low b'.le
    have high := lt_of_mul_lt_mul_right high b'.le
    rw [sub_div] at low ⊢
    rw [add_div] at high ⊢
    rw [quotient_eq positive r]
    exact ⟨by linarith, by linarith⟩

theorem no_multiple (positive : 0 < s) (base' : 0 < base) {t : ℕ}
    (early : t + 1 < ds.length) (m : ℤ) :
    ¬(((r : ℚ) - mm) / s < m / (base : ℚ) ^ t ∧ m / (base : ℚ) ^ t < ((r : ℚ) + mp) / s) := by
  have s' : (0 : ℚ) < s := by exact_mod_cast positive
  have b' : (0 : ℚ) < base := by exact_mod_cast base'
  rintro ⟨low, high⟩
  induction free generalizing t m with
  | last => simp at early
  | @next r mp mm ds goes _ ih =>
    rw [sub_div, quotient_eq positive r] at low
    rw [add_div, quotient_eq positive r] at high
    cases t with
    | zero =>
      have below : (mm : ℚ) / s ≤ (r % s : ℕ) / s := by
        refine div_le_div_of_nonneg_right ?_ s'.le
        exact_mod_cast show mm ≤ r % s by omega
      have above : ((r % s : ℕ) : ℚ) / s + mp / s ≤ 1 := by
        rw [← add_div, div_le_one s']
        exact_mod_cast show r % s + mp ≤ s by omega
      rw [pow_zero, div_one] at low high
      have first : ((r / s : ℕ) : ℤ) < m := by
        have less : (((r / s : ℕ) : ℤ) : ℚ) < m := by
          rw [Int.cast_natCast]
          linarith
        exact_mod_cast less
      have second : m < ((r / s : ℕ) : ℤ) + 1 := by
        have less : (m : ℚ) < (((r / s : ℕ) : ℤ) + 1 : ℤ) := by
          rw [Int.cast_add, Int.cast_natCast, Int.cast_one]
          linarith
        exact_mod_cast less
      omega
    | succ t =>
      generalize r / s = q at low high
      have moved : ((m - q * (base : ℤ) ^ (t + 1) : ℤ) : ℚ) / (base : ℚ) ^ t =
          (m / (base : ℚ) ^ (t + 1) - q) * base := by
        push_cast
        rw [pow_succ]
        field_simp
      refine ih (Nat.lt_of_succ_lt_succ early) (m - q * (base : ℤ) ^ (t + 1)) ?_ ?_
      · rw [moved]
        push_cast
        rw [show (((r % s : ℕ) : ℚ) * base - mm * base) / s = ((r % s : ℕ) / s - mm / s) * base by ring]
        exact mul_lt_mul_of_pos_right (by linarith) b'
      · rw [moved]
        push_cast
        rw [show (((r % s : ℕ) : ℚ) * base + mp * base) / s = ((r % s : ℕ) / s + mp / s) * base by ring]
        exact mul_lt_mul_of_pos_right (by linarith) b'

theorem length_le {t : ℕ}
    (large : s < (mm + mp) * base ^ t) : ds.length ≤ t + 1 := by
  induction free generalizing t with
  | last => simp
  | @next r mp mm ds goes _ ih =>
    cases t with
    | zero =>
      rw [pow_zero, Nat.mul_one] at large
      omega
    | succ t =>
      rw [List.length_cons, Nat.succ_le_succ_iff]
      refine ih ?_
      rw [pow_succ'] at large
      rwa [← Nat.add_mul, Nat.mul_assoc]

end

theorem exists_digits {t : ℕ} (large : s < (mm + mp) * base ^ t) : ∃ ds, FreeFormat base s r mp mm ds := by
  induction t generalizing r mp mm with
  | zero =>
    rw [pow_zero, Nat.mul_one] at large
    exact ⟨_, .last (by omega)⟩
  | succ t ih =>
    by_cases stops : r % s < mm ∨ s < r % s + mp
    · exact ⟨_, .last stops⟩
    · rw [pow_succ', ← Nat.mul_assoc, Nat.add_mul] at large
      obtain ⟨ds, rest⟩ := @ih (r % s * base) (mp * base) (mm * base) large
      exact ⟨_, .next stops rest⟩

theorem head_ne_zero (free : FreeFormat base s r mp mm ds) (positive : 0 < s) (low : mm ≤ r)
    (high : s < r + mp) : ∃ d ds', ds = d :: ds' ∧ d ≠ 0 := by
  by_cases less : r < s
  · have quotient : r / s = 0 := Nat.div_eq_of_lt less
    have rest : r % s = r := Nat.mod_eq_of_lt less
    cases free with
    | last =>
      refine ⟨_, [], rfl, ?_⟩
      unfold lastDigit
      rw [quotient, rest, if_neg (by omega), if_pos (by omega)]
      decide
    | next goes => exact absurd (.inr (by omega)) goes
  have quotient : 0 < r / s := Nat.div_pos (by omega) positive
  cases free with
  | last =>
    refine ⟨_, [], rfl, ?_⟩
    unfold lastDigit
    split
    · omega
    · split
      · omega
      · split <;> omega
  | next => exact ⟨_, _, rfl, by omega⟩

theorem not_shorter (free : FreeFormat base s r mp mm ds) (positive : 0 < s) (base' : 1 < base)
    (low : mm ≤ r) (high : s < r + mp) {ds' : List ℕ} (digits : ∀ d ∈ ds', d < base)
    (shorter : ds'.length < ds.length) (e : ℤ) : ¬(((r : ℚ) - mm) / s < fraction base ds' * (base : ℚ) ^ e ∧
      fraction base ds' * (base : ℚ) ^ e < ((r : ℚ) + mp) / s) := by
  have s' : (0 : ℚ) < s := by exact_mod_cast positive
  have b' : (1 : ℚ) < base := by exact_mod_cast base'
  have b'' : (base : ℚ) ≠ 0 := by positivity
  obtain ⟨m, small, eq⟩ := exists_fraction_eq (by omega) digits
  have lowest : 0 ≤ ((r : ℚ) - mm) / s := by
    refine div_nonneg ?_ s'.le
    rw [sub_nonneg]
    exact_mod_cast low
  rintro ⟨above, below⟩
  cases count : ds'.length with
  | zero =>
    have zero : m = 0 := by
      rw [count, pow_zero] at small
      omega
    rw [eq, zero] at above
    simp only [Nat.cast_zero, zero_div, zero_mul] at above
    linarith
  | succ t =>
    rw [count] at small eq shorter
    by_cases aligned : 1 ≤ e
    · -- A multiple of the weight of the digit at which it ends.
      obtain ⟨j, rfl⟩ : ∃ j : ℕ, e = j + 1 := ⟨(e - 1).toNat, by omega⟩
      have same : fraction base ds' * (base : ℚ) ^ ((j : ℤ) + 1) =
          ((m * base ^ j : ℕ) : ℤ) / (base : ℚ) ^ t := by
        rw [eq, zpow_add_one₀ b'', zpow_natCast, pow_succ]
        push_cast
        field_simp
      rw [same] at above below
      exact free.no_multiple positive (by omega) shorter _ ⟨above, below⟩
    -- Less than 1, and so is the lower bound not.
    have unit : 1 ≤ ((r : ℚ) - mm) / s := by
      by_contra more
      refine @no_multiple base s r mp mm ds free positive (by omega) 0 (by omega) 1 ⟨?_, ?_⟩
      · simpa using more
      · rw [Int.cast_one, pow_zero, div_one, lt_div_iff₀ s', one_mul]
        exact_mod_cast high
    have part : fraction base ds' < 1 := by
      rw [eq, div_lt_one (by positivity)]
      exact_mod_cast small
    have scale : (base : ℚ) ^ e ≤ 1 := zpow_le_one_of_nonpos₀ b'.le (by omega)
    have product : fraction base ds' * (base : ℚ) ^ e ≤ 1 * 1 := mul_le_mul part.le scale (by positivity) zero_le_one
    linarith

end FreeFormat

end Ghdl.Numbers
