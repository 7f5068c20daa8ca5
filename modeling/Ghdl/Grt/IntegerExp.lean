import Mathlib.Data.Int.ModEq
import Mathlib.Tactic.Positivity

/-!
# Exponentiation of integers at run time

`Ghdl_Integer_Exp` multiplies the squares of the bits of the exponent. Each product with the result is checked, but the
squares are not.
-/

namespace Ghdl.Grt

/-- The value is one of `Ghdl_I32`. -/
def InI32 (n : Int) : Prop := -2 ^ 31 ≤ n ∧ n < 2 ^ 31

instance (n : Int) : Decidable (InI32 n) := inferInstanceAs (Decidable (_ ∧ _))

/-- The value kept in a `Ghdl_I32` when overflows are not checked. -/
def toI32 (n : Int) : Int := n.bmod (2 ^ 32)

theorem toI32_eq {n : Int} (fits : InI32 n) : toI32 n = n :=
  Int.bmod_eq_of_le (by have := fits.1; omega) (by have := fits.2; omega)

theorem inI32_toI32 (n : Int) : InI32 (toI32 n) := by
  have low := Int.le_bmod (x := n) (m := 2 ^ 32) (by decide)
  have high := Int.bmod_lt (x := n) (m := 2 ^ 32) (by decide)
  unfold InI32 toI32
  omega

theorem toI32_modEq (n : Int) : toI32 n ≡ n [ZMOD 2 ^ 32] :=
  Int.bmod_emod

theorem toI32_congr {m n : Int} (same : m ≡ n [ZMOD 2 ^ 32]) : toI32 m = toI32 n := by
  unfold toI32 Int.bmod
  rw [show m % (2 ^ 32 : Nat) = n % (2 ^ 32 : Nat) from same]

/-- The messages of `Error` in `Ghdl_Integer_Exp`. -/
inductive ExpError where
  | negativeExponent
  | overflow
  deriving DecidableEq

/-- The loop of `Ghdl_Integer_Exp`. -/
def expLoop (res p : Int) (r : Nat) : Except ExpError Int :=
  if r % 2 = 1 ∧ toI32 (res * p) ≠ res * p then .error .overflow
  else
    let res := if r % 2 = 1 then toI32 (res * p) else res
    if r / 2 = 0 then .ok res else expLoop res (toI32 (p * p)) (r / 2)
termination_by r
decreasing_by omega

/-- `Ghdl_Integer_Exp`. -/
def ghdlIntegerExp (v e : Int) : Except ExpError Int :=
  if e < 0 then .error .negativeExponent else expLoop 1 v e.toNat

/-- The branch `Iir_Predefined_Integer_Exp` of `Eval_Dyadic_Operator`: a power of 64 bits, or `Constraint_Error`. -/
def evalIntegerExp (left right : Int) : Option Int :=
  if right < 0 then none
  else if -2 ^ 63 ≤ left ^ right.toNat ∧ left ^ right.toNat < 2 ^ 63 then some (left ^ right.toNat) else none

/-- For some bit of the exponent, the product of the powers for the bits below it with the square for it, both as they
are kept in 32 bits, does not fit. -/
def ProductOverflows (res p : Int) (r : Nat) : Prop :=
  ∃ k, r.testBit k ∧ ¬ InI32 (toI32 (res * p ^ (r % 2 ^ k)) * toI32 (p ^ 2 ^ k))

theorem productOverflows_iff {res res' p : Int} {r : Nat} (fits : InI32 res) (base : InI32 p)
    (next : res' = res * p ^ (r % 2)) : ProductOverflows res p r ↔
      r % 2 = 1 ∧ ¬ InI32 (res * p) ∨ ProductOverflows res' (toI32 (p * p)) (r / 2) := by
  have square (k : Nat) : toI32 (p ^ 2 ^ (k + 1)) = toI32 (toI32 (p * p) ^ 2 ^ k) := by
    apply toI32_congr
    rw [show 2 ^ (k + 1) = 2 * 2 ^ k from pow_succ' 2 k, pow_mul p, pow_two p]
    exact ((toI32_modEq _).pow _).symm
  have below (k : Nat) : toI32 (res * p ^ (r % 2 ^ (k + 1))) =
      toI32 (res' * toI32 (p * p) ^ (r / 2 % 2 ^ k)) := by
    have split : r % 2 ^ (k + 1) = r % 2 + 2 * (r / 2 % 2 ^ k) := by
      rw [pow_succ', Nat.mod_mul]
    apply toI32_congr
    rw [split, pow_add, pow_mul, pow_two, ← mul_assoc, ← next]
    exact ((toI32_modEq _).pow _).symm.mul_left _
  have lowest : toI32 (res * p ^ (r % 2 ^ 0)) * toI32 (p ^ 2 ^ 0) = res * p := by
    rw [pow_zero, Nat.mod_one, pow_zero, mul_one, pow_one, toI32_eq fits, toI32_eq base]
  constructor
  · rintro ⟨k, bit, late⟩
    cases k with
    | zero => exact .inl ⟨by simpa using bit, lowest ▸ late⟩
    | succ k =>
      rw [Nat.testBit_succ] at bit
      rw [below, square] at late
      exact .inr ⟨k, bit, late⟩
  · rintro (⟨odd, late⟩ | ⟨k, bit, late⟩)
    · exact ⟨0, by simpa using odd, lowest.symm ▸ late⟩
    · refine ⟨k + 1, ?_, ?_⟩
      · rw [Nat.testBit_succ]
        exact bit
      · rw [below, square]
        exact late

/-- The loop raises an error exactly when a product is seen not to fit, and else the power is kept in 32 bits. -/
theorem expLoop_spec (res p : Int) (r : Nat) (fits : InI32 res) (base : InI32 p) :
    (ProductOverflows res p r → expLoop res p r = .error .overflow) ∧
      (¬ ProductOverflows res p r → expLoop res p r = .ok (toI32 (res * p ^ r))) := by
  induction r using Nat.strongRecOn generalizing res p with
  | ind r ih =>
    rw [expLoop]
    by_cases late : r % 2 = 1 ∧ toI32 (res * p) ≠ res * p
    · have overflows : ProductOverflows res p r :=
        (productOverflows_iff fits base rfl).mpr (.inl ⟨late.1, fun inside => late.2 (toI32_eq inside)⟩)
      rw [if_pos late]
      exact ⟨fun _ => rfl, fun none => absurd overflows none⟩
    rw [if_neg late]
    have kept : ¬ (r % 2 = 1 ∧ ¬ InI32 (res * p)) := by
      rintro ⟨odd, outside⟩
      have exact_ : toI32 (res * p) = res * p := by
        by_contra wraps
        exact late ⟨odd, wraps⟩
      exact outside (exact_ ▸ inI32_toI32 _)
    obtain ⟨res', isRes⟩ : ∃ res', res' = if r % 2 = 1 then toI32 (res * p) else res := ⟨_, rfl⟩
    have next : res' = res * p ^ (r % 2) := by
      rw [isRes]
      rcases Nat.mod_two_eq_zero_or_one r with even | odd
      · rw [if_neg (by omega), even, pow_zero, mul_one]
      · rw [if_pos odd, odd, pow_one, toI32_eq (not_not.mp fun outside => kept ⟨odd, outside⟩)]
    have fits' : InI32 res' := by
      rw [isRes]
      split
      · exact inI32_toI32 _
      · exact fits
    rw [productOverflows_iff fits base next, or_iff_right kept]
    dsimp only
    rw [← isRes]
    by_cases last : r / 2 = 0
    · have noBit : ¬ ProductOverflows res' (toI32 (p * p)) (r / 2) := by
        rintro ⟨k, bit, -⟩
        rw [last, Nat.zero_testBit] at bit
        cases bit
      have whole : res' = res * p ^ r := by
        rw [next, show r % 2 = r by omega]
      rw [if_pos last, ← whole, toI32_eq fits']
      exact ⟨fun overflows => absurd overflows noBit, fun _ => rfl⟩
    have power : toI32 (res' * toI32 (p * p) ^ (r / 2)) = toI32 (res * p ^ r) := by
      apply toI32_congr
      have whole : res * p ^ r = res' * (p * p) ^ (r / 2) := by
        rw [next, mul_assoc, ← pow_two, ← pow_mul, ← pow_add, Nat.mod_add_div]
      rw [whole]
      exact ((toI32_modEq _).pow _).mul_left _
    rw [if_neg last, ← power]
    exact ih (r / 2) (by omega) res' _ fits' (inI32_toI32 _)

/-- A power below one that fits also fits. -/
theorem InI32.pow_le {v : Int} {m n : Nat} (fits : InI32 (v ^ n)) (below : m ≤ n) : InI32 (v ^ m) := by
  rcases below.eq_or_lt with rfl | less
  · exact fits
  have bound : |v| ^ n ≤ 2 ^ 31 := by
    rw [← abs_pow, abs_le]
    exact ⟨fits.1, fits.2.le⟩
  have small : |v ^ m| < 2 ^ 31 := by
    rw [abs_pow]
    by_cases unit : |v| ≤ 1
    · have atMost : |v| ^ m ≤ 1 := pow_le_one₀ (abs_nonneg v) unit
      omega
    have twice : 2 * |v| ^ m ≤ |v| ^ (m + 1) := by
      rw [pow_succ']
      exact mul_le_mul_of_nonneg_right (by omega) (by positivity)
    have grows : |v| ^ (m + 1) ≤ |v| ^ n := pow_le_pow_right₀ (by omega) less
    have positive : 0 ≤ |v| ^ m := by positivity
    omega
  exact ⟨(abs_lt.mp small).1.le, (abs_lt.mp small).2⟩

/-- No product overflows when the power fits. -/
theorem not_productOverflows {v : Int} {n : Nat} (fits : InI32 (v ^ n)) : ¬ ProductOverflows 1 v n := by
  rintro ⟨k, bit, late⟩
  have sum : n % 2 ^ k + 2 ^ k ≤ n := by
    have above : 1 ≤ n / 2 ^ k := by
      rw [Nat.testBit_eq_decide_div_mod_eq] at bit
      have odd : n / 2 ^ k % 2 = 1 := of_decide_eq_true bit
      apply Nat.one_le_iff_ne_zero.mpr
      intro zero
      rw [zero] at odd
      cases odd
    have quotient := Nat.mod_add_div n (2 ^ k)
    have := Nat.mul_le_mul_left (2 ^ k) above
    omega
  apply late
  rw [one_mul, toI32_eq (fits.pow_le (by omega)), toI32_eq (fits.pow_le (by omega)), ← pow_add]
  exact fits.pow_le sum

/-- The power is returned when it fits, and an error is raised in every other case. So the result is the one of the
static evaluation. -/
structure ExactExp (v e : Int) : Prop where
  power : 0 ≤ e → InI32 (v ^ e.toNat) → ghdlIntegerExp v e = .ok (v ^ e.toNat)
  error : e < 0 ∨ ¬ InI32 (v ^ e.toNat) → ∃ message, ghdlIntegerExp v e = .error message
  static : ∀ n, ghdlIntegerExp v e = .ok n → evalIntegerExp v e = some n

/-- The run-time exponentiation is exact if and only if the exponent is negative, or the power fits, or one of the
products with the squares as they are kept in 32 bits does not fit. -/
theorem ghdlIntegerExp_exact_iff (v e : Int) (base : InI32 v) :
    ExactExp v e ↔ e < 0 ∨ InI32 (v ^ e.toNat) ∨ ProductOverflows 1 v e.toNat := by
  have spec := expLoop_spec 1 v e.toNat (by decide) base
  rw [one_mul] at spec
  by_cases negative : e < 0
  · have raised : ghdlIntegerExp v e = .error .negativeExponent := if_pos negative
    refine iff_of_true ⟨fun positive => absurd positive (by omega), fun _ => ⟨_, raised⟩, ?_⟩ (.inl negative)
    intro n returned
    cases raised.symm.trans returned
  have run : ghdlIntegerExp v e = expLoop 1 v e.toNat := if_neg negative
  by_cases fits : InI32 (v ^ e.toNat)
  · have returned : ghdlIntegerExp v e = .ok (v ^ e.toNat) := by
      rw [run, spec.2 (not_productOverflows fits), toI32_eq fits]
    refine iff_of_true ⟨fun _ _ => returned, ?_, ?_⟩ (.inr (.inl fits))
    · intro outside
      exact absurd outside (not_or.mpr ⟨negative, not_not.mpr fits⟩)
    intro n other
    cases returned.symm.trans other
    obtain ⟨low, high⟩ := fits
    rw [evalIntegerExp, if_neg negative, if_pos ⟨by omega, by omega⟩]
  rw [or_iff_right negative, or_iff_right fits]
  constructor
  · intro exact_
    obtain ⟨message, raised⟩ := exact_.error (.inr fits)
    by_contra none
    rw [run, spec.2 none] at raised
    cases raised
  · intro overflows
    have raised : ghdlIntegerExp v e = .error .overflow := run.trans (spec.1 overflows)
    refine ⟨fun _ inside => absurd inside fits, fun _ => ⟨_, raised⟩, ?_⟩
    intro n returned
    cases raised.symm.trans returned

/-- `7 ** 20` raises an error: `7 ** 4 * 7 ** 16` is seen not to fit. -/
theorem ghdlIntegerExp_exact_seven : ExactExp 7 20 :=
  (ghdlIntegerExp_exact_iff 7 20 (by decide)).mpr (.inr (.inr ⟨4, by decide, by decide⟩))

/-- `65536 ** 2` returns 0, as its square is 0 in 32 bits. -/
theorem ghdlIntegerExp_wraps : InI32 65536 ∧ InI32 2 ∧ ghdlIntegerExp 65536 2 = .ok 0 ∧
    ¬ ∀ v e, InI32 v → InI32 e → ExactExp v e := by
  have run : ghdlIntegerExp 65536 2 = .ok 0 := by
    show expLoop 1 65536 2 = _
    rw [expLoop, if_neg (by decide)]
    dsimp only
    rw [if_neg (by decide), expLoop, if_neg (by decide)]
    rfl
  refine ⟨by decide, by decide, run, fun all => ?_⟩
  obtain ⟨message, raised⟩ := (all 65536 2 (by decide) (by decide)).error (.inr (by decide))
  cases run.symm.trans raised

end Ghdl.Grt
