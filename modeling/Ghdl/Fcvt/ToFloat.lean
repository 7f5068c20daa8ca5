import Ghdl.Fcvt.Divide
import Ghdl.Fcvt.ToString
import Ghdl.Numbers.Ties

/-!
# To a binary64 number

`To_Float_64` multiplies by a power of the base or divides by one, and packs the significand and the exponent. A number
in the range of the denormal numbers is lost in `Pack`, a product may be lost in `Bignum_To_Fp`, and otherwise the word
encodes a nearest number: the lower one of two for a product, the higher one for a quotient.
-/

namespace Ghdl.Fcvt

open Bignum Fallible Numbers

/-- `To_Float_64`: (-1)**Neg * F * BASE**EXP, with a bound for the steps of the division. -/
def toFloat64 (fuel : Nat) (neg : Bool) (f : Bignum) (base : Nat) (exp : Int) :
    Except FcvtError (Option UInt64) :=
  if f.n = 0 then do
    let word ← pack 0 0 neg
    .ok (some word)
  else if 0 ≤ exp then do
    let t ← pow base exp.toNat
    let frac ← mul f t
    let fp ← bignumToFp frac 53
    let word ← pack fp.1 fp.2 neg
    .ok (some word)
  else do
    let t ← pow base (-exp).toNat
    match ← divideToFp fuel f t 53 with
    | none => .ok none
    | some (m, e) =>
      let word ← pack m e neg
      .ok (some word)

/-- The word encodes a number, or infinity from 2**1024 on. -/
def Encodes (word : UInt64) (y : ℚ) : Prop :=
  magnitude word = if y < 2 ^ 1024 then .finite y else .infinite

theorem word_eq_of_fields {word word' : UInt64} (sign : signBit word = signBit word')
    (exponent : exponentField word = exponentField word') (fraction : fractionField word = fractionField word') :
    word = word' := by
  have below := word.toNat_lt
  have below' := word'.toNat_lt
  unfold signBit at sign
  unfold exponentField at exponent
  unfold fractionField at fraction
  rw [decide_eq_decide] at sign
  rw [← UInt64.toNat_inj]
  omega

theorem fraction_bits (word : UInt64) : HasBits 53 (2 ^ 52 + fractionField word) := by
  have below : fractionField word < 2 ^ 52 := Nat.mod_lt _ (by decide)
  exact ⟨by omega, by omega⟩

theorem fields_of_magnitude {word word' : UInt64} {y : ℚ} (is : magnitude word = .finite y)
    (is' : magnitude word' = .finite y) :
    exponentField word = exponentField word' ∧ fractionField word = fractionField word' := by
  have unit : (2 : ℚ) ^ (-1074 : Int) ≠ 0 := by positivity
  have bits := fraction_bits word
  have bits' := fraction_bits word'
  -- A normal number is above the denormal ones.
  have apart : ∀ {w w' : UInt64}, exponentField w ≠ 0 →
      ((2 ^ 52 + fractionField w : Nat) : ℚ) * 2 ^ ((exponentField w : Int) - 1075) ≠
        fractionField w' * 2 ^ (-1074 : Int) := by
    intro w w' normal same
    have reached := (fraction_bits w).le_iff ((exponentField w : Int) - 1075) (-1022)
    have large := reached.mpr (by omega)
    have small : (fractionField w' : ℚ) * 2 ^ (-1074 : Int) < 2 ^ 52 * 2 ^ (-1074 : Int) := by
      have below : fractionField w' < 2 ^ 52 := Nat.mod_lt _ (by decide)
      exact mul_lt_mul_of_pos_right (by exact_mod_cast below) (by positivity)
    have power : (2 : ℚ) ^ 52 * 2 ^ (-1074 : Int) = 2 ^ (-1022 : Int) := by
      rw [← zpow_natCast, ← zpow_add₀ (by norm_num)]
      norm_num
    rw [same] at large
    rw [power] at small
    exact absurd large small.not_ge
  unfold magnitude at is is'
  by_cases special : exponentField word = 2047
  · rw [if_pos special] at is
    split at is <;> cases is
  by_cases special' : exponentField word' = 2047
  · rw [if_pos special'] at is'
    split at is' <;> cases is'
  rw [if_neg special] at is
  rw [if_neg special'] at is'
  by_cases denormal : exponentField word = 0
  · rw [if_pos denormal, Magnitude.finite.injEq] at is
    by_cases denormal' : exponentField word' = 0
    · rw [if_pos denormal', Magnitude.finite.injEq, ← is, mul_left_inj' unit] at is'
      exact ⟨denormal.trans denormal'.symm, by exact_mod_cast is'.symm⟩
    · rw [if_neg denormal', Magnitude.finite.injEq, ← is] at is'
      exact absurd is' (apart denormal')
  rw [if_neg denormal, Magnitude.finite.injEq] at is
  by_cases denormal' : exponentField word' = 0
  · rw [if_pos denormal', Magnitude.finite.injEq, ← is] at is'
    exact absurd is'.symm (apart denormal)
  · rw [if_neg denormal', Magnitude.finite.injEq, ← is] at is'
    obtain ⟨significand, exponent⟩ := bits'.unique bits is'
    omega

theorem Encodes.unique {word word' : UInt64} {y : ℚ} (encodes : Encodes word y) (encodes' : Encodes word' y)
    (sign : signBit word = signBit word') : word = word' := by
  unfold Encodes at encodes encodes'
  by_cases finite : y < 2 ^ 1024
  · rw [if_pos finite] at encodes encodes'
    obtain ⟨exponent, fraction⟩ := fields_of_magnitude encodes encodes'
    exact word_eq_of_fields sign exponent fraction
  rw [if_neg finite] at encodes encodes'
  have fields : ∀ {w : UInt64}, magnitude w = .infinite → exponentField w = 2047 ∧ fractionField w = 0 := by
    intro w is
    unfold magnitude at is
    by_cases special : exponentField w = 2047
    · by_cases zero : fractionField w = 0
      · exact ⟨special, zero⟩
      · rw [if_pos special, if_neg zero] at is
        cases is
    · rw [if_neg special] at is
      split at is <;> cases is
  obtain ⟨exponent, fraction⟩ := fields encodes
  obtain ⟨exponent', fraction'⟩ := fields encodes'
  exact word_eq_of_fields sign (exponent.trans exponent'.symm) (fraction.trans fraction'.symm)

/-- The word encodes a number of the set that is nearest to a number, with its sign. -/
def FloatOf (x : ℚ) (neg : Bool) (word : UInt64) : Prop :=
  signBit word = neg ∧ ∃ y, Nearest binary64 x y ∧ Encodes word y

theorem pack_zero (neg : Bool) : ∃ word, pack 0 0 neg = .ok word ∧ signBit word = neg ∧ Encodes word 0 := by
  obtain ⟨word, returned, sign, encoded⟩ := (@packs_iff 0 (Or.inl rfl) 0 neg).mpr (Or.inl rfl)
  refine ⟨word, returned, sign, ?_⟩
  unfold Encodes
  rw [encoded, if_pos (by positivity)]
  rfl

variable {m : UInt64} {e : Int}

theorem pack_normal (bits : HasBits 53 m.toNat) (normal : -1074 ≤ e) (neg : Bool) :
    ∃ word, pack m e neg = .ok word ∧ signBit word = neg ∧ Encodes word (m.toNat * 2 ^ e) := by
  obtain ⟨word, returned, sign, encoded⟩ := (packs_iff (Or.inr bits) e neg).mpr (Or.inr (by omega))
  have some' : m.toNat ≠ 0 := by
    have least := bits.low
    omega
  refine ⟨word, returned, sign, ?_⟩
  unfold Encodes
  rw [encoded]
  unfold packed
  rw [if_neg some']
  have reached := bits.le_iff e 1024
  rw [zpow_ofNat] at reached
  by_cases high : 2047 ≤ e + 1075
  · rw [if_pos high, if_neg (not_lt.mpr (reached.mpr (by omega)))]
  · rw [if_neg high, if_pos (by omega), if_pos (not_le.mp fun large => high (by have := reached.mp large; omega))]

theorem pack_vanishes (bits : HasBits 53 m.toNat) (small : e < -1127) (neg : Bool) :
    ∃ word, pack m e neg = .ok word ∧ signBit word = neg ∧ Encodes word 0 := by
  obtain ⟨word, returned, sign, encoded⟩ := (packs_iff (Or.inr bits) e neg).mpr (Or.inr (by omega))
  refine ⟨word, returned, sign, ?_⟩
  have some' : m.toNat ≠ 0 := by
    have least := bits.low
    omega
  have gone : m.toNat / 2 ^ (1 - (e + 1075)).toNat = 0 :=
    Nat.div_eq_of_lt (bits.high.trans_le (Nat.pow_le_pow_right (by decide) (by omega)))
  unfold Encodes
  rw [encoded, if_pos (by positivity)]
  unfold packed
  rw [if_neg some', if_neg (by omega), if_neg (by omega), gone, Nat.cast_zero, zero_mul]

theorem pack_shifted (bits : HasBits 53 m.toNat) (low : -1127 ≤ e) (high : e ≤ -1075) (neg : Bool) :
    ∃ word, pack m e neg = .ok word ∧ signBit word = neg ∧
      magnitude word = .finite ((m.toNat / 2 ^ (e + 1127).toNat : Nat) * 2 ^ (-1074 : Int)) := by
  obtain ⟨t, computed, small, shifted⟩ := packMagnitude_denormal bits (by omega : e + 1075 < 1)
  rw [if_neg (by omega), show 52 + (e + 1075) = e + 1127 by ring] at shifted
  obtain ⟨sign, same⟩ := sign_fields (small.trans (by decide)) neg
  refine ⟨_, ?_, sign, ?_⟩
  · unfold pack
    have bounded : ¬0x20000000000000 ≤ m := by
      rw [UInt64.le_iff_toNat_le]
      exact Nat.not_le.mpr bits.high
    rw [if_neg bounded, computed]
    rfl
  · rw [same, magnitude_small small, shifted]

variable {x : ℚ}

theorem mem_binary64 (bits : HasBits 53 m.toNat) (normal : -1074 ≤ e) : (m.toNat * 2 ^ e : ℚ) ∈ binary64 :=
  ⟨m.toNat, e, bits.high, normal, rfl⟩

theorem nearest_zero (nonneg : 0 ≤ x) (small : x < 2 ^ (-1075 : Int)) : Nearest binary64 x 0 := by
  refine ⟨⟨0, -1074, by decide, le_refl _, by simp⟩, ?_⟩
  rintro z ⟨m, e, -, least, rfl⟩
  rw [sub_zero, abs_of_nonneg nonneg]
  rcases Nat.eq_zero_or_pos m with rfl | some'
  · simp [abs_of_nonneg nonneg]
  have unit : (2 : ℚ) ^ (-1074 : Int) ≤ 2 ^ e := zpow_le_zpow_right₀ (by norm_num) least
  have one : (1 : ℚ) ≤ m := by exact_mod_cast some'
  have large : (2 : ℚ) ^ (-1074 : Int) ≤ m * 2 ^ e := by
    have product := mul_le_mul_of_nonneg_right one (zpow_nonneg (by norm_num : (0 : ℚ) ≤ 2) e)
    linarith
  have half : (2 : ℚ) ^ (-1074 : Int) = 2 * 2 ^ (-1075 : Int) := by
    rw [show (-1075 : Int) = -1074 - 1 by norm_num, zpow_sub_one₀ (by norm_num)]
    ring
  rw [abs_sub_comm, abs_of_nonneg (by linarith)]
  linarith

theorem shifted_far {m s t : Nat} (bits : HasBits 53 m) (sum : s + t = 53) (positive : 0 < s)
    (above : 2 * (m / 2 ^ t * 2 ^ s) < 2 * m + 3 * 2 ^ s) : 2 * (m / 2 ^ t * 2 ^ s) + 3 * 2 ^ s ≤ 2 * m := by
  have low : m / 2 ^ t * 2 ^ t ≤ m := Nat.div_mul_le_self m _
  have high : m < m / 2 ^ t * 2 ^ t + 2 ^ t := Nat.lt_div_mul_add (Nat.two_pow_pos t)
  have least := bits.low
  generalize m / 2 ^ t = v at low high above ⊢
  rcases Nat.lt_or_ge t 27 with left | right
  · -- The shift is too short.
    obtain ⟨c, split⟩ : ∃ c, s = t + c := ⟨s - t, by omega⟩
    have factor : 2 ≤ 2 ^ c := Nat.le_self_pow (by omega) 2
    have small : 2 ^ t ≤ 2 ^ 26 := Nat.pow_le_pow_right (by decide) (by omega)
    have product : v * 2 ^ s = v * 2 ^ t * 2 ^ c := by rw [split, pow_add, Nat.mul_assoc]
    have unit : 2 ^ s = 2 ^ t * 2 ^ c := by rw [split, pow_add]
    rw [product, unit] at above
    generalize 2 ^ c = c at above factor
    generalize 2 ^ t = b at above low high small
    have scaled : m * c ≤ (v * b + b) * c := Nat.mul_le_mul_right c high.le
    have double : m * 2 ≤ m * c := Nat.mul_le_mul_left m factor
    have few : 5 * b * c ≤ m * c := Nat.mul_le_mul_right c (by omega)
    rw [Nat.add_mul] at scaled
    rw [Nat.mul_assoc] at few
    omega
  · -- The shift is too long.
    have order : 2 * 2 ^ s ≤ 2 ^ t := by
      rw [← pow_succ']
      exact Nat.pow_le_pow_right (by decide) (by omega)
    have small : 2 ^ s ≤ 2 ^ 26 := Nat.pow_le_pow_right (by decide) (by omega)
    have scaled : v * (2 * 2 ^ s) ≤ v * 2 ^ t := Nat.mul_le_mul_left v order
    rw [Nat.mul_left_comm] at scaled
    omega

theorem nearest_within {m : Nat} (bits : HasBits 53 m) (nearest : Nearest (floats 53) x (m * 2 ^ e)) :
    |x - m * 2 ^ e| ≤ 2 ^ e / 2 := by
  have unit : (0 : ℚ) < 2 ^ e := by positivity
  have least := bits.low
  have above := nearest.2 _ (bits.succ_mem_floats (by decide) e)
  have below := nearest.2 _ (mem_floats_of_pos (p := 53) (m := m - 1) (by omega) (by have := bits.high; omega) e)
  have next : (((m + 1 : Nat) : ℚ) * 2 ^ e) = m * 2 ^ e + 2 ^ e := by
    push_cast
    ring
  have previous : (((m - 1 : Nat) : ℚ) * 2 ^ e) = m * 2 ^ e - 2 ^ e := by
    rw [Nat.cast_sub (by omega)]
    push_cast
    ring
  rw [next] at above
  rw [previous] at below
  rcases le_total x (m * 2 ^ e) with low | high
  · rw [abs_sub_comm, abs_of_nonneg (by linarith)] at below ⊢
    by_contra far
    rcases le_total x (m * 2 ^ e - 2 ^ e) with left | right
    · rw [abs_sub_comm, abs_of_nonneg (by linarith)] at below
      linarith
    · rw [abs_of_nonneg (by linarith)] at below
      linarith
  · rw [abs_of_nonneg (by linarith)] at above ⊢
    by_contra far
    rcases le_total x (m * 2 ^ e + 2 ^ e) with left | right
    · rw [abs_sub_comm, abs_of_nonneg (by linarith)] at above
      linarith
    · rw [abs_of_nonneg (by linarith)] at above
      linarith

theorem not_nearest_shifted {m : Nat} (bits : HasBits 53 m) (nearest : Nearest (floats 53) x (m * 2 ^ e))
    (low : -1127 ≤ e) (high : e ≤ -1075) :
    ¬Nearest binary64 x ((m / 2 ^ (e + 1127).toNat : Nat) * 2 ^ (-1074 : Int)) := by
  intro packed
  obtain ⟨s, exponent, positive, most⟩ : ∃ s : Nat, e = -1074 - s ∧ 0 < s ∧ s ≤ 53 :=
    ⟨(-1074 - e).toNat, by omega, by omega, by omega⟩
  have within := nearest_within bits nearest
  have unit : (0 : ℚ) < 2 ^ e := by positivity
  have scale : (2 : ℚ) ^ (-1074 : Int) = (2 ^ s : Nat) * 2 ^ e := by
    rw [Nat.cast_pow, Nat.cast_ofNat, ← zpow_natCast, ← zpow_add₀ (by norm_num)]
    congr 1
    omega
  -- The multiple of the least number below is within one and a half units.
  have whole : (((m / 2 ^ s : Nat) : ℚ) * 2 ^ (-1074 : Int)) ∈ binary64 :=
    ⟨m / 2 ^ s, -1074, (Nat.div_le_self _ _).trans_lt bits.high, le_refl _, rfl⟩
  have near := packed.2 _ whole
  rw [scale, ← mul_assoc, ← mul_assoc, ← Nat.cast_mul, ← Nat.cast_mul] at near
  have floor : m / 2 ^ s * 2 ^ s ≤ m := Nat.div_mul_le_self m _
  have rest : m < m / 2 ^ s * 2 ^ s + 2 ^ s := Nat.lt_div_mul_add (Nat.two_pow_pos s)
  have two : 2 ≤ 2 ^ s := Nat.le_self_pow (by omega) 2
  rw [show (e + 1127).toNat = 53 - s by omega] at near
  have far := @shifted_far m s (53 - s) bits (by omega) positive
  generalize m / 2 ^ (53 - s) * 2 ^ s = v at near far
  generalize m / 2 ^ s * 2 ^ s = w at near floor rest
  generalize 2 ^ s = a at floor rest two far
  have close : |(v : ℚ) - m| < 3 / 2 * a := by
    have wide : (2 : ℚ) ≤ a := by exact_mod_cast two
    have gap : (m : ℚ) - w ≤ a - 1 := by
      have bound : m + 1 ≤ w + a := rest
      have cast : (m : ℚ) + 1 ≤ w + a := by exact_mod_cast bound
      linarith
    have ordered : (w : ℚ) * 2 ^ e ≤ m * 2 ^ e := mul_le_mul_of_nonneg_right (by exact_mod_cast floor) unit.le
    have first := abs_sub_le x (m * 2 ^ e) (w * 2 ^ e)
    have second := abs_sub_le ((v : ℚ) * 2 ^ e) x (m * 2 ^ e)
    rw [abs_of_nonneg (sub_nonneg.mpr ordered)] at first
    rw [abs_sub_comm _ x, ← sub_mul, abs_mul, abs_of_pos unit] at second
    have scaled := mul_le_mul_of_nonneg_right gap unit.le
    have total : |(v : ℚ) - m| * 2 ^ e ≤ a * 2 ^ e := by linarith
    have bounded := le_of_mul_le_mul_right total unit
    linarith
  rw [abs_lt] at close
  have above : 2 * v < 2 * m + 3 * a := by
    have bound : 2 * (v : ℚ) < 2 * m + 3 * a := by linarith
    exact_mod_cast bound
  have below : 2 * m < 2 * v + 3 * a := by
    have bound : 2 * (m : ℚ) < 2 * v + 3 * a := by linarith
    exact_mod_cast bound
  have contradiction := far above
  omega

/-- The numbers that are rounded to a denormal number, or to the power of two below them: they are shifted by the
wrong amount. -/
def Lost (x : ℚ) : Prop :=
  2 ^ (-1075 : Int) - 2 ^ (-1129 : Int) ≤ x ∧ x < 2 ^ (-1022 : Int) - 2 ^ (-1076 : Int)

theorem lost_iff (bits : HasBits 53 m.toNat) (up : NearestUp (floats 53) x (m.toNat * 2 ^ e)) :
    Lost x ↔ -1127 ≤ e ∧ e ≤ -1075 := by
  have low := up.le_iff (by decide) (-1075)
  have high := up.le_iff (by decide) (-1022)
  rw [bits.le_iff] at low high
  rw [show (-1075 : Int) - (53 : Nat) - 1 = -1129 by decide] at low
  rw [show (-1022 : Int) - (53 : Nat) - 1 = -1076 by decide] at high
  unfold Lost
  rw [← low, ← not_le, ← high]
  constructor
  all_goals
    rintro ⟨left, right⟩
    omega

/-- What is packed for a number rounded up is a nearest number unless it is lost. -/
theorem pack_up_iff (bits : HasBits 53 m.toNat) (some' : 0 < x)
    (up : NearestUp (floats 53) x (m.toNat * 2 ^ e)) (neg : Bool) :
    ∃ word, pack m e neg = .ok word ∧ (FloatOf x neg word ↔ ¬Lost x) := by
  rw [lost_iff bits up]
  rcases lt_or_ge e (-1127) with vanishes | more
  · obtain ⟨word, returned, sign, encodes⟩ := pack_vanishes bits vanishes neg
    refine ⟨word, returned, iff_of_true ⟨sign, 0, ?_, encodes⟩ (by omega)⟩
    apply nearest_zero some'.le
    by_contra large
    have member : (2 : ℚ) ^ (-1075 : Int) ∈ floats 53 := by
      have power := mem_floats_of_pos (p := 53) Nat.one_pos (by decide) (-1075)
      rwa [Nat.cast_one, one_mul] at power
    have below : (m.toNat * 2 ^ e : ℚ) < 2 ^ (-1075 : Int) :=
      not_le.mp fun reached => absurd ((bits.le_iff e (-1075)).mp reached) (by omega)
    have near := up.nearest.2 _ member
    rw [abs_of_nonneg (by linarith), abs_of_nonneg (by linarith)] at near
    linarith
  rcases le_or_gt e (-1075) with wrong | normal
  · obtain ⟨word, returned, -, shifted⟩ := pack_shifted bits more wrong neg
    refine ⟨word, returned, iff_of_false ?_ (by omega)⟩
    rintro ⟨-, y, nearest, encodes⟩
    unfold Encodes at encodes
    rw [shifted] at encodes
    by_cases finite : y < 2 ^ 1024
    · rw [if_pos finite, Magnitude.finite.injEq] at encodes
      rw [← encodes] at nearest
      exact not_nearest_shifted bits up.nearest more wrong nearest
    · rw [if_neg finite] at encodes
      cases encodes
  · obtain ⟨word, returned, sign, encodes⟩ := @pack_normal m e bits (by omega) neg
    have part := @boundedFloats_part 53 x (m.toNat * 2 ^ e) (-1074) (by decide) some' up.nearest
    refine ⟨word, returned, iff_of_true ⟨sign, _, ?_, encodes⟩ (by omega)⟩
    exact up.nearest.mono (@mem_binary64 m e bits (by omega)) part

namespace Bignum

/-- The number of a value. -/
def ofNat (v : Nat) : Bignum := ⟨(Nat.digits (2 ^ 32) v).map UInt32.ofNat⟩

theorem Valid.eq_ofNat {f : Bignum} (valid : f.Valid) : f = ofNat f.value := by
  obtain ⟨v⟩ := f
  unfold ofNat value digitsValue
  have digits : Nat.digits (2 ^ 32) (Nat.ofDigits (2 ^ 32) (v.map UInt32.toNat)) = v.map UInt32.toNat := by
    refine Nat.digits_ofDigits (2 ^ 32) (by decide) _ ?_ ?_
    · intro d inside
      obtain ⟨w, -, rfl⟩ := List.mem_map.mp inside
      exact w.toNat_lt
    intro some' zero
    rw [List.getLast_map] at zero
    refine valid.normal ?_
    rw [List.getLast?_eq_some_getLast (by simpa using some')]
    exact congrArg some (UInt32.toNat_inj.mp zero)
  rw [digits, List.map_map]
  congr 1
  exact (List.map_id'' (fun w => UInt32.ofNat_toNat) v).symm

theorem roundCarry_skips {f : Bignum} {p : Nat} {s : Spliced} (drops : Drops f (f.value.size - p) s)
    (skips : TieSkips f p) :
    roundCarry f s = if (f.value.size - p - 1) / 32 % 2 = 1 then .error .assertion else .ok false := by
  obtain ⟨-, ⟨first, last⟩, bits⟩ := drops
  obtain ⟨-, tie, zeros, -⟩ := skips
  generalize f.value.size - p = k at first last bits tie zeros ⊢
  obtain ⟨word, position⟩ : ∃ word, s.mswPos = word + 1 := ⟨s.mswPos - 1, by omega⟩
  have isWord : (k - 1) / 32 = word := by omega
  rw [position, Nat.add_sub_cancel] at first bits
  rw [position] at last
  rw [isWord] at tie zeros ⊢
  have equal : s.r = 0x80000000 := by
    have unit : 2 ^ (k - 32 * word - 1) * 2 ^ (32 * (word + 1) - k) = 2 ^ 31 := by
      rw [← pow_add]
      congr 1
      omega
    rw [← UInt32.toNat_inj, bits, tie, unit]
    rfl
  unfold roundCarry
  rw [equal, if_neg (by decide), if_neg (by decide), position]
  exact (tieCarry_eq f word).2 zeros

/-- A number whose digits are skipped: it is rounded down where it is above a half, unless it is too large all the
same, or the loop runs off its digits. -/
def Bad (f : Bignum) : Prop :=
  TieSkips f 53 ∧ (f.value < 2 ^ 1024 ∨ (f.value.size - 54) / 32 % 2 = 1)

theorem down_eq {v : Nat} (more : 53 < v.size) : HasBits 53 (v / 2 ^ (v.size - 53)) ∧
      NearestDown (floats 53) v (((v / 2 ^ (v.size - 53) +
        (decide (2 ^ (v.size - 53) < 2 * (v % 2 ^ (v.size - 53)))).toNat : Nat) : ℚ) *
          2 ^ ((v.size - 53 : Nat) : Int)) := by
  have bits := hasBits_div (by decide : 0 < 53) more
  exact ⟨bits, (nearest_div_iff (by decide) bits _).mpr rfl⟩

theorem normal_of_nearest {m : UInt64} {e : Int} {v : Nat} (positive : 0 < v) (bits : HasBits 53 m.toNat)
    (nearest : Nearest (floats 53) v (m.toNat * 2 ^ e)) : -1074 ≤ e := by
  have least : (1 : ℚ) ≤ v := by exact_mod_cast positive
  have one : (1 : ℚ) ∈ floats 53 := by
    have power := mem_floats_of_pos (p := 53) Nat.one_pos (by decide) 0
    rwa [Nat.cast_one, zpow_zero, mul_one] at power
  have near := nearest.2 1 one
  rw [abs_of_nonneg (sub_nonneg.mpr least)] at near
  have reached : (2 : ℚ) ^ (0 : Int) ≤ m.toNat * 2 ^ e := by
    have bound := le_of_abs_le near
    rw [zpow_zero]
    linarith
  have exponent := (bits.le_iff e 0).mp reached
  omega

/-- `Bignum_To_Fp` and `Pack` return a word of the nearest number, of the lower one for a tie, unless digits are
skipped. -/
theorem toFp_packs {f : Bignum} (valid : f.Valid) (positive : 0 < f.value) (neg : Bool) :
    (Bad f → ¬∃ word, (bignumToFp f 53 >>= fun fp => pack fp.1 fp.2 neg) = .ok word ∧ FloatOf f.value neg word) ∧
    (¬Bad f → ∃ word y, (bignumToFp f 53 >>= fun fp => pack fp.1 fp.2 neg) = .ok word ∧ signBit word = neg ∧
      NearestDown binary64 f.value y ∧ Encodes word y) := by
  have digits : f.n ≠ 0 := (value_pos valid.normal).mp positive
  have some' : (0 : ℚ) < f.value := by exact_mod_cast positive
  have part : ∀ {y : ℚ}, NearestDown (floats 53) f.value y → y ∈ binary64 → NearestDown binary64 f.value y :=
    fun down inside => down.mono inside (boundedFloats_part (by decide) some' down.nearest)
  by_cases skips : TieSkips f 53
  swap
  · refine ⟨fun bad => absurd bad.1 skips, fun _ => ?_⟩
    obtain ⟨m, e, converted, bits, down⟩ := (bignumToFp_nearest_iff valid positive (by decide) (by decide)).mpr skips
    have normal := normal_of_nearest positive bits down.nearest
    obtain ⟨word, packed, sign, encodes⟩ := pack_normal bits normal neg
    refine ⟨word, _, ?_, sign, part down (mem_binary64 bits normal), encodes⟩
    rw [bind_ok]
    exact ⟨_, converted, packed⟩
  have more : 53 < f.value.size := by
    have dropped := skips.1
    omega
  have drops := splice_drops valid.normal digits (by decide : 53 ≤ 64) more
  have spec := roundCarry_spec drops
  have rounded := roundCarry_skips drops skips
  rw [show f.value.size - 53 - 1 = f.value.size - 54 by omega] at rounded
  by_cases odd : (f.value.size - 54) / 32 % 2 = 1
  · refine ⟨fun _ => ?_, fun good => absurd ⟨skips, Or.inr odd⟩ good⟩
    rintro ⟨word, run, -⟩
    rw [bind_ok] at run
    obtain ⟨fp, converted, -⟩ := run
    obtain ⟨carry, decided, -⟩ :=
      (bignumToFp_ok valid.normal digits).mp (show bignumToFp f 53 = .ok (fp.1, fp.2) from converted)
    rw [rounded, if_pos odd] at decided
    cases decided
  rw [if_neg odd] at rounded
  obtain ⟨bits, down⟩ := down_eq more
  have bits' : HasBits 53 (splice f 53).m.toNat := drops.m.symm ▸ bits
  obtain ⟨word, packed, sign, encodes⟩ := @pack_normal (splice f 53).m (f.value.size - 53) bits' (by omega) neg
  have run : (bignumToFp f 53 >>= fun fp => pack fp.1 fp.2 neg) = .ok word := by
    rw [bind_ok]
    exact ⟨_, (bignumToFp_ok valid.normal digits).mpr ⟨false, rounded, rfl⟩, packed⟩
  have exponent : (f.value.size - 53 : Int) = (f.value.size - 53 : Nat) := by omega
  rw [drops.m, exponent] at encodes
  have reached := bits.le_iff ((f.value.size - 53 : Nat) : Int) 1024
  have enough : 2 ^ 1024 ≤ f.value → 1024 ≤ ((53 : Nat) : Int) - 1 + (f.value.size - 53 : Nat) := by
    intro large
    have size := Nat.lt_size.mpr large
    omega
  generalize counted : f.value.size - 53 = k at *
  have unit : (0 : ℚ) < 2 ^ (k : Int) := by positivity
  have split : (f.value : ℚ) = (f.value / 2 ^ k : Nat) * 2 ^ (k : Int) + (f.value % 2 ^ k : Nat) := by
    rw [zpow_natCast]
    exact_mod_cast (Nat.div_add_mod' f.value (2 ^ k)).symm
  have rest : (0 : ℚ) ≤ (f.value % 2 ^ k : Nat) := Nat.cast_nonneg _
  by_cases large : f.value < 2 ^ 1024
  · refine ⟨fun _ => ?_, fun good => absurd ⟨skips, Or.inl large⟩ good⟩
    rintro ⟨word', run', -, y, nearest, encodes'⟩
    rw [run, Except.ok.injEq] at run'
    have small : ((f.value / 2 ^ k : Nat) : ℚ) * 2 ^ (k : Int) < 2 ^ 1024 := by
      have below : (f.value : ℚ) < 2 ^ 1024 := by exact_mod_cast large
      refine lt_of_le_of_lt ?_ below
      rw [split]
      exact le_add_of_nonneg_right rest
    unfold Encodes at encodes encodes'
    rw [← run', encodes, if_pos small] at encodes'
    have same : y = (f.value / 2 ^ k : Nat) * 2 ^ (k : Int) := by
      by_cases finite : y < 2 ^ 1024
      · rw [if_pos finite, Magnitude.finite.injEq] at encodes'
        exact encodes'.symm
      · rw [if_neg finite] at encodes'
        cases encodes'
    -- More than a half is dropped, as it would be rounded down otherwise.
    have half : 2 ^ k < 2 * (f.value % 2 ^ k) := by
      by_contra less
      refine spec.mp (rounded.trans ?_) skips
      have double : 2 ^ k = 2 ^ (k - 1) * 2 := by rw [← pow_succ, Nat.sub_add_cancel (by omega)]
      rw [decide_eq_false (by omega)]
    have above : (2 : ℚ) ^ (k : Int) < 2 * (f.value % 2 ^ k : Nat) := by
      rw [zpow_natCast]
      exact_mod_cast half
    have near := nearest.2 _ (succ_mem_boundedFloats (by decide) bits.high (show (-1074 : Int) ≤ k by omega))
    have next : (((f.value / 2 ^ k + 1 : Nat) : ℚ) * 2 ^ (k : Int)) =
        (f.value / 2 ^ k : Nat) * 2 ^ (k : Int) + 2 ^ (k : Int) := by
      push_cast
      ring
    have under : ((f.value % 2 ^ k : Nat) : ℚ) ≤ 2 ^ (k : Int) := by
      rw [zpow_natCast]
      exact_mod_cast (Nat.mod_lt f.value (Nat.two_pow_pos k)).le
    rw [same, next, abs_of_nonneg (by linarith), abs_sub_comm, abs_of_nonneg (by linarith)] at near
    linarith
  · refine ⟨fun bad => absurd bad.2 fun is => is.elim large odd, fun _ => ⟨word, _, run, sign, part down ?_, ?_⟩⟩
    · cases decide (2 ^ k < 2 * (f.value % 2 ^ k))
      · exact ⟨_, k, bits.high, by omega, rfl⟩
      · exact succ_mem_boundedFloats (by decide) bits.high (by omega)
    have over' : (2 : ℚ) ^ (1024 : Int) ≤ (f.value / 2 ^ k : Nat) * 2 ^ (k : Int) :=
      reached.mpr (enough (not_lt.mp large))
    rw [zpow_ofNat] at over'
    have more' : ((f.value / 2 ^ k : Nat) : ℚ) * 2 ^ (k : Int) ≤
        ((f.value / 2 ^ k + (decide (2 ^ k < 2 * (f.value % 2 ^ k))).toNat : Nat) : ℚ) * 2 ^ (k : Int) :=
      mul_le_mul_of_nonneg_right (by exact_mod_cast Nat.le_add_right _ _) unit.le
    unfold Encodes at encodes ⊢
    rw [encodes, if_neg (not_lt.mpr over'), if_neg (not_lt.mpr (over'.trans more'))]

end Bignum

/-- The number F * BASE**EXP. -/
def scaled (f base : Nat) (exp : Int) : ℚ := f * (base : ℚ) ^ exp

/-- The capacity of the numbers of many digits: the product has one digit less than the array, and so has the divider,
which can be aligned and doubled. -/
def Capacity (f base : Nat) (exp : Int) : Prop :=
  if 0 ≤ exp then f * base ^ exp.toNat < (2 ^ 32) ^ 36
  else base ^ (-exp).toNat < (2 ^ 32) ^ 36 ∧
    2 * ((2 ^ 32) ^ ((ofNat f).n + 1 - (ofNat (base ^ (-exp).toNat)).n) * base ^ (-exp).toNat) ≤ (2 ^ 32) ^ last

instance (f base : Nat) (exp : Int) : Decidable (Capacity f base exp) :=
  inferInstanceAs (Decidable (if 0 ≤ exp then _ else _))

variable {f : Bignum} {base : Nat} {exp : Int}

theorem toFloat64_product (valid : f.Valid) (positive : 0 < f.value) (someBase : 0 < base) (small : base < 2 ^ 32)
    (nonneg : 0 ≤ exp) (capacity : Capacity f.value base exp) : (ofNat (f.value * base ^ exp.toNat)).Valid ∧
      (ofNat (f.value * base ^ exp.toNat)).value = f.value * base ^ exp.toNat ∧
      ∀ fuel neg, toFloat64 fuel neg f base exp =
        (bignumToFp (ofNat (f.value * base ^ exp.toNat)) 53 >>= fun fp => pack fp.1 fp.2 neg).map some := by
  unfold Capacity at capacity
  rw [if_pos nonneg] at capacity
  have factor : 0 < base ^ exp.toNat := Nat.pow_pos someBase
  have digits : f.n ≠ 0 := (value_pos valid.normal).mp positive
  obtain ⟨t, computedT, validT, valueT⟩ :=
    pow_spec someBase small ((Nat.le_mul_of_pos_left _ positive).trans_lt capacity)
  obtain ⟨frac, computedF, validF, valueF⟩ := mul_returns valid validT positive (valueT.symm ▸ factor)
    (valueT.symm ▸ capacity)
  rw [valueT] at valueF
  have same : frac = ofNat (f.value * base ^ exp.toNat) := by rw [validF.eq_ofNat, valueF]
  rw [← same]
  refine ⟨validF, valueF, fun fuel neg => ?_⟩
  unfold toFloat64
  rw [if_neg digits, if_pos nonneg, computedT]
  show (f.mul t >>= fun frac => bignumToFp frac 53 >>= fun fp => pack fp.1 fp.2 neg >>= fun word => .ok (some word)) = _
  rw [computedF]
  cases run : bignumToFp frac 53 with
  | error _ =>
    show (bignumToFp frac 53 >>= _) = _
    rw [run]
    rfl
  | ok fp =>
    show (bignumToFp frac 53 >>= _) = _
    rw [run]
    show (pack fp.1 fp.2 neg >>= fun word => .ok (some word)) = (pack fp.1 fp.2 neg).map some
    cases pack fp.1 fp.2 neg <;> rfl

theorem toFloat64_quotient (valid : f.Valid) (positive : 0 < f.value) (someBase : 0 < base) (small : base < 2 ^ 32)
    (negative : exp < 0) (capacity : Capacity f.value base exp) {fuel : Nat} (enough : 65 ≤ fuel) (neg : Bool) :
    ∃ m e, HasBits 53 (UInt64.toNat m) ∧ NearestUp (floats 53) (scaled f.value base exp) (m.toNat * 2 ^ e) ∧
      toFloat64 fuel neg f base exp = (pack m e neg).map some := by
  unfold Capacity at capacity
  rw [if_neg (by omega)] at capacity
  obtain ⟨powers, aligned⟩ := capacity
  have factor : 0 < base ^ (-exp).toNat := Nat.pow_pos someBase
  have digits : f.n ≠ 0 := (value_pos valid.normal).mp positive
  obtain ⟨t, computedT, validT, valueT⟩ := pow_spec someBase small powers
  have fits : 2 * ((2 ^ 32) ^ (f.n + 1 - t.n) * t.value) ≤ (2 ^ 32) ^ last := by
    have sameF := valid.eq_ofNat
    have sameT := validT.eq_ofNat
    rw [valueT] at sameT
    rw [← sameF, ← sameT] at aligned
    rwa [valueT]
  obtain ⟨⟨m, e, divided, bits, up⟩, -⟩ := @divideToFp_nearest f t valid validT positive (valueT.symm ▸ factor) fits
    53 (by decide) (by decide) fuel enough
  refine ⟨m, e, bits, ?_, ?_⟩
  · have power : scaled f.value base exp = (f.value : ℚ) / t.value := by
      have negated : exp = -((-exp).toNat : Int) := by omega
      unfold scaled
      rw [valueT, negated, zpow_neg, zpow_natCast, ← negated, Nat.cast_pow]
      rfl
    rw [power]
    exact up
  · unfold toFloat64
    rw [if_neg digits, if_neg (by omega), computedT]
    show (divideToFp fuel f t 53 >>= _) = _
    rw [divided]
    show (pack m e neg >>= fun word => .ok (some word)) = _
    cases pack m e neg <;> rfl

end Ghdl.Fcvt
