import Ghdl.Numbers.Nearest
import Mathlib.Algebra.Order.Archimedean.Basic
import Mathlib.Data.Nat.Size

/-!
# Ties

A number halfway between two neighbours is nearest to both, and the two ways of rounding go to different ones of
them. Otherwise they agree. The numbers with a least exponent are, but for 0, among those with all exponents, so that
a number rounded without regard to the exponent is rounded for the former when it is one of these.
-/

namespace Ghdl.Numbers

section Sets

variable {K : Type*} [Field K] [LinearOrder K] {s t : Set K} {x y z : K}

/-- The number `y` of the set is one of the nearest to `x`. -/
def Nearest (s : Set K) (x y : K) : Prop :=
  y ∈ s ∧ ∀ z ∈ s, |x - y| ≤ |x - z|

/-- A number with two nearest ones. -/
def Tie (s : Set K) (x : K) : Prop :=
  ∃ y z, y ≠ z ∧ Nearest s x y ∧ Nearest s x z

theorem NearestDown.nearest (down : NearestDown s x y) : Nearest s x y :=
  ⟨down.1, fun z inside => (down.2 z inside).elim le_of_lt fun tie => tie.1.le⟩

theorem NearestUp.nearest (up : NearestUp s x y) : Nearest s x y :=
  ⟨up.1, fun z inside => (up.2 z inside).elim le_of_lt fun tie => tie.1.le⟩

theorem NearestDown.le (down : NearestDown s x y) (other : Nearest s x z) : y ≤ z :=
  (down.2 z other.1).elim (fun less => absurd less (other.2 y down.1).not_gt) fun tie => tie.2

theorem NearestUp.ge (up : NearestUp s x y) (other : Nearest s x z) : z ≤ y :=
  (up.2 z other.1).elim (fun less => absurd less (other.2 y up.1).not_gt) fun tie => tie.2

theorem NearestUp.unique (left : NearestUp s x y) (right : NearestUp s x z) : y = z :=
  le_antisymm (right.ge left.nearest) (left.ge right.nearest)

theorem tie_iff (down : NearestDown s x y) (up : NearestUp s x z) : Tie s x ↔ y ≠ z := by
  constructor
  · rintro ⟨v, w, different, nearV, nearW⟩ same
    have left : v = y := le_antisymm (same ▸ up.ge nearV) (down.le nearV)
    have right : w = y := le_antisymm (same ▸ up.ge nearW) (down.le nearW)
    exact different (left.trans right.symm)
  · exact fun different => ⟨y, z, different, down.nearest, up.nearest⟩

theorem Nearest.mono (nearest : Nearest t x y) (inside : y ∈ s) (part : ∀ z ∈ s, z ∈ t ∨ |x - y| < |x - z|) :
    Nearest s x y :=
  ⟨inside, fun z within => (part z within).elim (nearest.2 z) le_of_lt⟩

theorem NearestDown.mono (down : NearestDown t x y) (inside : y ∈ s)
    (part : ∀ z ∈ s, z ∈ t ∨ |x - y| < |x - z|) : NearestDown s x y :=
  ⟨inside, fun z within => (part z within).elim (down.2 z) Or.inl⟩

theorem NearestUp.mono (up : NearestUp t x y) (inside : y ∈ s)
    (part : ∀ z ∈ s, z ∈ t ∨ |x - y| < |x - z|) : NearestUp s x y :=
  ⟨inside, fun z within => (part z within).elim (up.2 z) Or.inl⟩

end Sets

section Floats

variable {p m m' : Nat} {e e' : Int} {x y : ℚ}

theorem HasBits.positive (bits : HasBits p m) : 0 < p := by
  by_contra zero
  have low := bits.low
  have high := bits.high
  rw [show p = 0 by omega] at low high
  omega

theorem HasBits.window (bits : HasBits p m) (e : Int) :
    (2 : ℚ) ^ ((p : Int) - 1 + e) ≤ m * 2 ^ e ∧ (m * 2 ^ e : ℚ) < 2 ^ ((p : Int) + e) := by
  have unit : (0 : ℚ) < 2 ^ e := by positivity
  have positive := bits.positive
  constructor
  · rw [show (p : Int) - 1 = ((p - 1 : Nat) : Int) by omega, zpow_add₀ (by norm_num), zpow_natCast]
    exact mul_le_mul_of_nonneg_right (by exact_mod_cast bits.low) unit.le
  · rw [zpow_add₀ (by norm_num), zpow_natCast]
    exact mul_lt_mul_of_pos_right (by exact_mod_cast bits.high) unit

theorem HasBits.le_iff (bits : HasBits p m) (e k : Int) : (2 : ℚ) ^ k ≤ m * 2 ^ e ↔ k ≤ (p : Int) - 1 + e := by
  obtain ⟨low, high⟩ := bits.window e
  constructor
  · intro reached
    have powers := (zpow_lt_zpow_iff_right₀ (by norm_num)).mp (reached.trans_lt high)
    omega
  · exact fun order => (zpow_le_zpow_right₀ (by norm_num) order).trans low

theorem HasBits.unique (bits : HasBits p m) (bits' : HasBits p m') (same : (m * 2 ^ e : ℚ) = m' * 2 ^ e') :
    m = m' ∧ e = e' := by
  have left := (bits.le_iff e ((p : Int) - 1 + e')).mp (same ▸ (bits'.window e').1)
  have right := (bits'.le_iff e' ((p : Int) - 1 + e)).mp (same ▸ (bits.window e).1)
  obtain rfl : e = e' := by omega
  have unit : (2 : ℚ) ^ e ≠ 0 := by positivity
  exact ⟨by exact_mod_cast mul_right_cancel₀ unit same, rfl⟩

theorem mem_floats_of_pos (some' : 0 < m) (room : m < 2 ^ p) (e : Int) : (m * 2 ^ e : ℚ) ∈ floats p := by
  have counted : m.size ≤ p := Nat.size_le.mpr room
  have digits := Nat.size_pos.mpr some'
  have least : 2 ^ (m.size - 1) ≤ m := Nat.lt_size.mp (by omega)
  refine ⟨m * 2 ^ (p - m.size), e - (p - m.size : Nat), ⟨?_, ?_⟩, ?_⟩
  · have split : p - 1 = m.size - 1 + (p - m.size) := by omega
    calc 2 ^ (p - 1) = 2 ^ (m.size - 1) * 2 ^ (p - m.size) := by rw [← pow_add, ← split]
      _ ≤ m * 2 ^ (p - m.size) := Nat.mul_le_mul_right _ least
  · calc m * 2 ^ (p - m.size) < 2 ^ m.size * 2 ^ (p - m.size) :=
          Nat.mul_lt_mul_of_pos_right (Nat.lt_size_self m) (Nat.two_pow_pos _)
      _ = 2 ^ p := by rw [← pow_add, Nat.add_sub_cancel' counted]
  · rw [zpow_sub₀ (by norm_num), zpow_natCast]
    push_cast
    field_simp

theorem Nearest.lt_zero (positive : 0 < p) (some' : 0 < x) (nearest : Nearest (floats p) x y) : |x - y| < |x - 0| := by
  obtain ⟨k, below⟩ := exists_pow_lt_of_lt_one some' (by norm_num : (1 / 2 : ℚ) < 1)
  have power : (1 / 2 : ℚ) ^ k = (1 : Nat) * 2 ^ (-(k : Int)) := by
    rw [zpow_neg, zpow_natCast]
    simp
  have room : 1 < 2 ^ p := Nat.one_lt_two_pow positive.ne'
  have member : (1 / 2 : ℚ) ^ k ∈ floats p := power ▸ mem_floats_of_pos Nat.one_pos room _
  have unit : (0 : ℚ) < (1 / 2) ^ k := by positivity
  have near := nearest.2 _ member
  rw [abs_of_pos (sub_pos.mpr below)] at near
  rw [sub_zero, abs_of_pos some']
  linarith

theorem boundedFloats_part {least : Int} (positive : 0 < p) (some' : 0 < x) (nearest : Nearest (floats p) x y) :
    ∀ z ∈ boundedFloats p least, z ∈ floats p ∨ |x - y| < |x - z| := by
  rintro z ⟨m, e, room, -, rfl⟩
  rcases Nat.eq_zero_or_pos m with rfl | digits
  · right
    rw [Nat.cast_zero, zero_mul]
    exact nearest.lt_zero positive some'
  · exact Or.inl (mem_floats_of_pos digits room e)

theorem NearestUp.le_iff (positive : 0 < p) (up : NearestUp (floats p) x y) (k : Int) :
    (2 : ℚ) ^ k ≤ y ↔ (2 : ℚ) ^ k - 2 ^ (k - p - 1) ≤ x := by
  have bits : HasBits p (2 ^ p - 1) := by
    have double : 2 ^ p = 2 ^ (p - 1) * 2 := by rw [← pow_succ, Nat.sub_add_cancel positive]
    have some' := Nat.two_pow_pos (p - 1)
    exact ⟨by omega, by omega⟩
  have adjacent := adjacent_floats positive bits (k - p)
  have power : (((2 ^ p - 1 + 1 : Nat) : ℚ) * 2 ^ (k - (p : Int))) = 2 ^ k := by
    rw [Nat.sub_add_cancel Nat.one_le_two_pow, Nat.cast_pow, Nat.cast_ofNat, ← zpow_natCast,
      ← zpow_add₀ (by norm_num)]
    congr 1
    omega
  have lower : (((2 ^ p - 1 : Nat) : ℚ) * 2 ^ (k - (p : Int))) = 2 ^ k - 2 ^ (k - (p : Int)) := by
    rw [← power]
    push_cast
    ring
  have half : (2 : ℚ) ^ (k - (p : Int)) = 2 * 2 ^ (k - (p : Int) - 1) := by
    rw [zpow_sub_one₀ (by norm_num)]
    ring
  rw [power, lower] at adjacent
  have unit : (0 : ℚ) < 2 ^ (k - (p : Int) - 1) := by positivity
  constructor
  · intro reached
    by_contra less
    have near := up.nearest.2 _ adjacent.low
    rw [abs_sub_comm x y, abs_of_pos (by linarith : 0 < y - x)] at near
    rcases le_total x (2 ^ k - 2 ^ (k - (p : Int))) with below | above
    · rw [abs_sub_comm, abs_of_nonneg (by linarith)] at near
      linarith
    · rw [abs_of_nonneg (by linarith)] at near
      linarith
  · intro enough
    by_contra less
    have below : y ≤ 2 ^ k - 2 ^ (k - (p : Int)) := (adjacent.gap y up.1).resolve_right less
    have decided := up.2 _ adjacent.high
    rw [abs_of_nonneg (by linarith : 0 ≤ x - y)] at decided
    rcases le_total x (2 ^ k) with small | large
    · rw [abs_sub_comm, abs_of_nonneg (by linarith : 0 ≤ 2 ^ k - x)] at decided
      rcases decided with closer | ⟨-, order⟩
      · linarith
      · linarith
    · rw [abs_of_nonneg (by linarith : 0 ≤ x - 2 ^ k)] at decided
      rcases decided with closer | ⟨-, order⟩
      · linarith
      · linarith

end Floats

end Ghdl.Numbers
