import Mathlib.Algebra.Order.Field.Power
import Mathlib.Tactic.Linarith
import Mathlib.Tactic.Positivity
import Mathlib.Tactic.Ring

/-!
# The nearest number of a set

Rounding maps a number to the nearest one of a set of representable numbers. Between two neighbours of
the set it is decided by their distances, and a tie goes to the lower one. The numbers whose significand
has a given count of bits are such a set, where the neighbours differ by one unit of the significand.
-/

namespace Ghdl.Numbers

section Sets

variable {K : Type*} [Field K] [LinearOrder K] [IsStrictOrderedRing K] {s : Set K} {a b x y : K}

/-- The number `y` of the set is nearest to `x`, and the lower one of two that are. -/
def NearestDown (s : Set K) (x y : K) : Prop :=
  y ∈ s ∧ ∀ z ∈ s, |x - y| < |x - z| ∨ |x - y| = |x - z| ∧ y ≤ z

/-- Two numbers of the set with none between them. -/
structure Adjacent (s : Set K) (a b : K) : Prop where
  low : a ∈ s
  high : b ∈ s
  ordered : a < b
  gap : ∀ z ∈ s, z ≤ a ∨ b ≤ z

omit [IsStrictOrderedRing K] in
theorem NearestDown.unique {y' : K} (left : NearestDown s x y) (right : NearestDown s x y') : y = y' := by
  have below := left.2 y' right.1
  have above := right.2 y left.1
  rcases below with less | ⟨equal, order⟩
  · rcases above with more | ⟨equal', -⟩
    · exact absurd less (lt_asymm more)
    · exact absurd equal'.symm less.ne
  · rcases above with more | ⟨-, order'⟩
    · exact absurd equal.symm more.ne
    · exact le_antisymm order order'

theorem Adjacent.down (adjacent : Adjacent s a b) (low : a ≤ x) (half : x - a ≤ b - x) : NearestDown s x a := by
  refine ⟨adjacent.low, fun z inside => ?_⟩
  rw [abs_of_nonneg (sub_nonneg.mpr low)]
  rcases adjacent.gap z inside with below | above
  · rw [abs_of_nonneg (by linarith)]
    rcases below.lt_or_eq with less | rfl
    · exact Or.inl (by linarith)
    · exact Or.inr ⟨rfl, le_refl _⟩
  rw [abs_sub_comm, abs_of_nonneg (by linarith)]
  rcases half.lt_or_eq with less | tie
  · exact Or.inl (by linarith)
  · rcases above.lt_or_eq with more | rfl
    · exact Or.inl (by linarith)
    · exact Or.inr ⟨tie, adjacent.ordered.le⟩

theorem Adjacent.up (adjacent : Adjacent s a b) (high : x ≤ b) (half : b - x < x - a) : NearestDown s x b := by
  refine ⟨adjacent.high, fun z inside => ?_⟩
  rw [abs_sub_comm, abs_of_nonneg (sub_nonneg.mpr high)]
  rcases adjacent.gap z inside with below | above
  · rw [abs_of_nonneg (by linarith)]
    exact Or.inl (by linarith)
  · rw [abs_sub_comm, abs_of_nonneg (by linarith)]
    rcases above.lt_or_eq with more | rfl
    · exact Or.inl (by linarith)
    · exact Or.inr ⟨rfl, le_refl _⟩

theorem Adjacent.nearest_iff (adjacent : Adjacent s a b) (low : a ≤ x) (high : x ≤ b) :
    NearestDown s x y ↔ y = if b - x < x - a then b else a := by
  by_cases half : b - x < x - a
  · rw [if_pos half]
    have nearest := adjacent.up high half
    exact ⟨fun other => other.unique nearest, fun is => is ▸ nearest⟩
  · rw [if_neg half]
    have nearest := adjacent.down low (not_lt.mp half)
    exact ⟨fun other => other.unique nearest, fun is => is ▸ nearest⟩

/-- The number `y` of the set is nearest to `x`, and the higher one of two that are. -/
def NearestUp (s : Set K) (x y : K) : Prop :=
  y ∈ s ∧ ∀ z ∈ s, |x - y| < |x - z| ∨ |x - y| = |x - z| ∧ z ≤ y

theorem Adjacent.down_up (adjacent : Adjacent s a b) (low : a ≤ x) (half : x - a < b - x) : NearestUp s x a := by
  refine ⟨adjacent.low, fun z inside => ?_⟩
  rw [abs_of_nonneg (sub_nonneg.mpr low)]
  rcases adjacent.gap z inside with below | above
  · rw [abs_of_nonneg (by linarith)]
    rcases below.lt_or_eq with less | rfl
    · exact Or.inl (by linarith)
    · exact Or.inr ⟨rfl, le_refl _⟩
  · rw [abs_sub_comm, abs_of_nonneg (by linarith)]
    exact Or.inl (by linarith)

theorem Adjacent.up_up (adjacent : Adjacent s a b) (high : x ≤ b) (half : b - x ≤ x - a) : NearestUp s x b := by
  refine ⟨adjacent.high, fun z inside => ?_⟩
  rw [abs_sub_comm, abs_of_nonneg (sub_nonneg.mpr high)]
  rcases adjacent.gap z inside with below | above
  · rw [abs_of_nonneg (by linarith)]
    rcases half.lt_or_eq with less | tie
    · exact Or.inl (by linarith)
    · rcases below.lt_or_eq with more | rfl
      · exact Or.inl (by linarith)
      · exact Or.inr ⟨tie, adjacent.ordered.le⟩
  · rw [abs_sub_comm, abs_of_nonneg (by linarith)]
    rcases above.lt_or_eq with more | rfl
    · exact Or.inl (by linarith)
    · exact Or.inr ⟨rfl, le_refl _⟩

/-- The numbers that are strictly nearer to `v` than to every other number of the set. -/
def Rounds (s : Set K) (v : K) : Set K := {x | ∀ y ∈ s, y ≠ v → |x - v| < |x - y|}

/-- The numbers that are nearest to `v` reach from half the gap below it to half the gap above it. -/
theorem Adjacent.rounds_iff {v : K} (below : Adjacent s a v) (above : Adjacent s v b) :
    x ∈ Rounds s v ↔ a + v < 2 * x ∧ 2 * x < v + b := by
  have low := below.ordered
  have high := above.ordered
  constructor
  · intro rounds
    have left := rounds a below.low low.ne
    have right := rounds b above.high high.ne'
    constructor
    · by_contra far
      rw [abs_of_nonpos (by linarith : x - v ≤ 0)] at left
      rcases le_total a x with more | less
      · rw [abs_of_nonneg (by linarith : 0 ≤ x - a)] at left
        linarith
      · rw [abs_of_nonpos (by linarith : x - a ≤ 0)] at left
        linarith
    · by_contra far
      rw [abs_of_nonneg (by linarith : 0 ≤ x - v)] at right
      rcases le_total x b with less | more
      · rw [abs_of_nonpos (by linarith : x - b ≤ 0)] at right
        linarith
      · rw [abs_of_nonneg (by linarith : 0 ≤ x - b)] at right
        linarith
  · rintro ⟨left, right⟩ y inside different
    have outside : y ≤ a ∨ b ≤ y := by
      rcases below.gap y inside with less | more
      · exact .inl less
      · exact .inr ((above.gap y inside).resolve_left fun same =>
          different (le_antisymm same more))
    rw [abs_lt]
    rcases outside with less | more
    · rw [abs_of_nonneg (by linarith : 0 ≤ x - y)]
      exact ⟨by linarith, by linarith⟩
    · rw [abs_of_nonpos (by linarith : x - y ≤ 0)]
      exact ⟨by linarith, by linarith⟩

end Sets

/-- A significand of exactly `p` bits. -/
structure HasBits (p m : Nat) : Prop where
  low : 2 ^ (p - 1) ≤ m
  high : m < 2 ^ p

/-- The numbers with a significand of `p` bits. -/
def floats (p : Nat) : Set ℚ := {y | ∃ m : Nat, ∃ e : Int, HasBits p m ∧ y = m * 2 ^ e}

section Floats

variable {p m : Nat} {e : Int}

theorem HasBits.mem_floats (bits : HasBits p m) (e : Int) : (m * 2 ^ e : ℚ) ∈ floats p :=
  ⟨m, e, bits, rfl⟩

theorem carry_eq (positive : 0 < p) (e : Int) : ((2 ^ (p - 1) : Nat) * 2 ^ (e + 1) : ℚ) = (2 ^ p : Nat) * 2 ^ e := by
  have bits : 2 ^ p = 2 ^ (p - 1) * 2 := by rw [← pow_succ, Nat.sub_add_cancel positive]
  rw [bits, zpow_add_one₀ (by norm_num)]
  push_cast
  ring

theorem HasBits.succ_mem_floats (positive : 0 < p) (bits : HasBits p m) (e : Int) :
    (((m + 1 : Nat) : ℚ) * 2 ^ e) ∈ floats p := by
  by_cases carry : m + 1 < 2 ^ p
  · exact HasBits.mem_floats ⟨by have low := bits.low; omega, carry⟩ e
  have full : m + 1 = 2 ^ p := by
    have high := bits.high
    omega
  have half : 2 ^ (p - 1) < 2 ^ p := Nat.pow_lt_pow_right (by decide) (by omega)
  rw [full, ← carry_eq positive]
  exact HasBits.mem_floats ⟨le_refl _, half⟩ (e + 1)

theorem lower_exponent_le {m' : Nat} {e' : Int} (less : e' < e) (low : 2 ^ (p - 1) ≤ m)
    (high : m' < 2 ^ p) : (m' : ℚ) * 2 ^ e' ≤ m * 2 ^ e := by
  obtain ⟨k, rfl⟩ : ∃ k : Nat, e = e' + 1 + k := ⟨(e - e' - 1).toNat, by omega⟩
  have bits : (2 ^ p : Nat) ≤ m * 2 ^ (k + 1) := by
    calc 2 ^ p ≤ 2 ^ (p - 1) * 2 ^ (k + 1) := by
          rw [← pow_add]
          exact Nat.pow_le_pow_right (by decide) (by omega)
      _ ≤ m * 2 ^ (k + 1) := Nat.mul_le_mul_right _ low
  have order : m' ≤ m * 2 ^ (k + 1) := high.le.trans bits
  calc (m' : ℚ) * 2 ^ e' ≤ (m * 2 ^ (k + 1) : Nat) * 2 ^ e' :=
        mul_le_mul_of_nonneg_right (by exact_mod_cast order) (by positivity)
    _ = m * 2 ^ (e' + 1 + k) := by
        rw [show e' + 1 + (k : Int) = e' + ((k + 1 : Nat) : Int) by push_cast; ring,
          zpow_add₀ (by norm_num), zpow_natCast]
        push_cast
        ring

theorem multiple_gap {e' : Int} (more : e ≤ e') (m m' : Nat) :
    (m' : ℚ) * 2 ^ e' ≤ m * 2 ^ e ∨ ((m + 1 : Nat) : ℚ) * 2 ^ e ≤ m' * 2 ^ e' := by
  have unit : (0 : ℚ) < 2 ^ e := by positivity
  obtain ⟨k, rfl⟩ : ∃ k : Nat, e' = e + k := ⟨(e' - e).toNat, by omega⟩
  have scaled : (m' : ℚ) * 2 ^ (e + k) = (m' * 2 ^ k : Nat) * 2 ^ e := by
    rw [zpow_add₀ (by norm_num), zpow_natCast]
    push_cast
    ring
  rw [scaled]
  rcases Nat.lt_or_ge m (m' * 2 ^ k) with above | below
  · exact .inr (mul_le_mul_of_nonneg_right (by exact_mod_cast above) unit.le)
  · exact .inl (mul_le_mul_of_nonneg_right (by exact_mod_cast below) unit.le)

theorem adjacent_floats (positive : 0 < p) (bits : HasBits p m) (e : Int) :
    Adjacent (floats p) (m * 2 ^ e) (((m + 1 : Nat) : ℚ) * 2 ^ e) := by
  have unit : (0 : ℚ) < 2 ^ e := by positivity
  refine ⟨bits.mem_floats e, bits.succ_mem_floats positive e, ?_, ?_⟩
  · exact mul_lt_mul_of_pos_right (by exact_mod_cast Nat.lt_succ_self m) unit
  rintro z ⟨m', e', bits', rfl⟩
  rcases lt_or_ge e' e with less | more
  · exact .inl (lower_exponent_le less bits.low bits'.high)
  · exact multiple_gap more m m'

/-- The numbers with a significand of at most `p` bits and an exponent that is not below the least one. -/
def boundedFloats (p : Nat) (least : Int) : Set ℚ :=
  {y | ∃ m : Nat, ∃ e : Int, m < 2 ^ p ∧ least ≤ e ∧ y = m * 2 ^ e}

theorem succ_mem_boundedFloats {least : Int} (positive : 0 < p) (room : m < 2 ^ p) (fits : least ≤ e) :
    (((m + 1 : Nat) : ℚ) * 2 ^ e) ∈ boundedFloats p least := by
  by_cases carry : m + 1 < 2 ^ p
  · exact ⟨m + 1, e, carry, fits, rfl⟩
  · have full : m + 1 = 2 ^ p := by omega
    have half : 2 ^ (p - 1) < 2 ^ p := Nat.pow_lt_pow_right (by decide) (by omega)
    rw [full, ← carry_eq positive]
    exact ⟨2 ^ (p - 1), e + 1, half, by omega, rfl⟩

theorem adjacent_boundedFloats {least : Int} (positive : 0 < p) (room : m < 2 ^ p) (fits : least ≤ e)
    (normal : 2 ^ (p - 1) ≤ m ∨ e = least) :
    Adjacent (boundedFloats p least) (m * 2 ^ e) (((m + 1 : Nat) : ℚ) * 2 ^ e) := by
  have unit : (0 : ℚ) < 2 ^ e := by positivity
  refine ⟨⟨m, e, room, fits, rfl⟩, succ_mem_boundedFloats positive room fits, ?_, ?_⟩
  · exact mul_lt_mul_of_pos_right (by exact_mod_cast Nat.lt_succ_self m) unit
  rintro z ⟨m', e', room', fits', rfl⟩
  rcases lt_or_ge e' e with less | more
  · exact .inl (lower_exponent_le less (normal.resolve_right (by omega)) room')
  · exact multiple_gap more m m'

end Floats

end Ghdl.Numbers
