import Ghdl.Numbers.FreeFormat
import Ghdl.Numbers.Nearest
import Mathlib.Data.Nat.Digits.Lemmas

/-!
# Numerals

The number that digits denote, the most significant first. Leading zeros do not count and trailing ones multiply by the
base; the digits after a point denote it divided by a power of the base. A number is rounded to a count of places by
dropping digits and by the next one and those after it.
-/

namespace Ghdl.Numbers

/-- The number that digits denote. -/
def numeral (base : ℕ) (ds : List ℕ) : ℕ := Nat.ofDigits base ds.reverse

section Numerals

variable {base : ℕ} {ds ds' : List ℕ}

@[simp] theorem numeral_nil : numeral base [] = 0 := rfl

theorem numeral_append (ds ds' : List ℕ) :
    numeral base (ds ++ ds') = numeral base ds * base ^ ds'.length + numeral base ds' := by
  unfold numeral
  rw [List.reverse_append, Nat.ofDigits_append, List.length_reverse, Nat.add_comm, Nat.mul_comm]

theorem numeral_cons (d : ℕ) (ds : List ℕ) : numeral base (d :: ds) = d * base ^ ds.length + numeral base ds := by
  rw [← List.singleton_append, numeral_append]
  simp [numeral]

theorem numeral_replicate_zero (n : ℕ) : numeral base (List.replicate n 0) = 0 := by
  unfold numeral
  rw [List.reverse_replicate]
  exact Nat.ofDigits_replicate_zero

theorem numeral_lt (positive : 1 < base) (digits : ∀ d ∈ ds, d < base) : numeral base ds < base ^ ds.length := by
  unfold numeral
  rw [← List.length_reverse]
  exact Nat.ofDigits_lt_base_pow_length positive fun d inside => digits d (List.mem_reverse.mp inside)

theorem numeral_pos_iff (positive : 0 < base) (ds : List ℕ) : 0 < numeral base ds ↔ ∃ d ∈ ds, d ≠ 0 := by
  induction ds with
  | nil => simp
  | cons d ds ih =>
    have unit : 0 < base ^ ds.length := Nat.pow_pos positive
    rw [numeral_cons, Nat.add_pos_iff_pos_or_pos, ih, Nat.mul_pos_iff_of_pos_right unit, Nat.pos_iff_ne_zero,
      List.exists_mem_cons_iff]

theorem fraction_eq_numeral (positive : 0 < base) (ds : List ℕ) :
    fraction base ds = numeral base ds / (base : ℚ) ^ ds.length := by
  have base' : (base : ℚ) ≠ 0 := by positivity
  induction ds with
  | nil => simp [fraction]
  | cons d ds ih =>
    rw [fraction, ih, numeral_cons, List.length_cons, pow_succ]
    push_cast
    field_simp

theorem le_numeral_iff (positive : 1 < base) {d : ℕ} (digits : ∀ e ∈ ds, e < base) :
    base ^ ds.length ≤ numeral base (d :: ds) ↔ d ≠ 0 := by
  have below := numeral_lt positive digits
  rw [numeral_cons]
  constructor
  · rintro large rfl
    omega
  · intro some'
    have unit : 1 * base ^ ds.length ≤ d * base ^ ds.length := Nat.mul_le_mul_right _ (Nat.pos_of_ne_zero some')
    omega

end Numerals

/-- The numbers with a count of places after the point. -/
def decimals (base n : ℕ) : Set ℚ := {y | ∃ m : ℕ, y = m / (base : ℚ) ^ n}

section Decimals

variable {base n : ℕ}

theorem adjacent_decimals (positive : 0 < base) (m : ℕ) :
    Adjacent (decimals base n) (m / (base : ℚ) ^ n) ((m + 1 : ℕ) / (base : ℚ) ^ n) := by
  have unit : (0 : ℚ) < (base : ℚ) ^ n := by positivity
  refine ⟨⟨m, rfl⟩, ⟨m + 1, rfl⟩, ?_, ?_⟩
  · exact div_lt_div_of_pos_right (by exact_mod_cast Nat.lt_succ_self m) unit
  rintro z ⟨k, rfl⟩
  rcases Nat.lt_or_ge m k with more | less
  · exact Or.inr (div_le_div_of_nonneg_right (by exact_mod_cast more) unit.le)
  · exact Or.inl (div_le_div_of_nonneg_right (by exact_mod_cast less) unit.le)

theorem nearest_decimal (positive : 0 < base) (q j : ℕ) : NearestDown (decimals base n) (q / (base : ℚ) ^ (n + j))
      (((q / base ^ j + if base ^ j < 2 * (q % base ^ j) then 1 else 0 : ℕ) : ℚ) / (base : ℚ) ^ n) := by
  have unit : (0 : ℚ) < (base : ℚ) ^ n := by positivity
  have scale : (0 : ℚ) < (base : ℚ) ^ j := by positivity
  have adjacent := @adjacent_decimals base n positive (q / base ^ j)
  have parts : (q : ℚ) = (q / base ^ j : ℕ) * (base : ℚ) ^ j + (q % base ^ j : ℕ) := by
    exact_mod_cast (Nat.div_add_mod' q (base ^ j)).symm
  have split : (q : ℚ) / (base : ℚ) ^ (n + j) =
      ((q / base ^ j : ℕ) + (q % base ^ j : ℕ) / (base : ℚ) ^ j) / (base : ℚ) ^ n := by
    rw [pow_add]
    field_simp
    linarith
  have rest : ((q % base ^ j : ℕ) : ℚ) / (base : ℚ) ^ j ≤ 1 := by
    rw [div_le_one scale]
    exact_mod_cast (Nat.mod_lt q (Nat.pow_pos positive)).le
  have nonneg : 0 ≤ ((q % base ^ j : ℕ) : ℚ) / (base : ℚ) ^ j := by positivity
  have half : base ^ j < 2 * (q % base ^ j) ↔ 1 < 2 * (((q % base ^ j : ℕ) : ℚ) / (base : ℚ) ^ j) := by
    rw [← mul_div_assoc, one_lt_div scale]
    exact_mod_cast Iff.rfl
  generalize ((q % base ^ j : ℕ) : ℚ) / (base : ℚ) ^ j = r at split rest nonneg half
  generalize q / base ^ j = m at split adjacent ⊢
  rw [split]
  by_cases more : base ^ j < 2 * (q % base ^ j)
  · rw [if_pos more]
    have above := half.mp more
    apply adjacent.up
    · rw [div_le_div_iff_of_pos_right unit]
      push_cast
      linarith
    · rw [← sub_div, ← sub_div, div_lt_div_iff_of_pos_right unit]
      push_cast
      linarith
  · rw [if_neg more, Nat.add_zero]
    have below := not_lt.mp fun above => more (half.mpr above)
    apply adjacent.down
    · rw [div_le_div_iff_of_pos_right unit]
      linarith
    · rw [← sub_div, ← sub_div, div_le_div_iff_of_pos_right unit]
      push_cast
      linarith

theorem nearest_decimal_exact (positive : 0 < base) (m : ℕ) :
    NearestDown (decimals base n) (m / (base : ℚ) ^ n) (m / (base : ℚ) ^ n) := by
  have adjacent := @adjacent_decimals base n positive m
  exact adjacent.down (le_refl _) (by have ordered := adjacent.ordered; linarith)

end Decimals

end Ghdl.Numbers
