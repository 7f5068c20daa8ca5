import Ghdl.Fcvt.Dragon4

/-!
# Scaling

`Dragon4_Prepare` represents the number and half the gaps to its neighbours as quotients with one divisor. The
estimate of the power of ten is the right one or one less, for every exponent of a binary64 number, so that
`Dragon4_Scale` brings the upper bound between 1 and 10.
-/

namespace Ghdl.Fcvt

open Bignum Fallible Numbers

theorem zpow_eq_div (b : ℚ) (x : Int) : b ^ x = b ^ x.toNat / b ^ (-x).toNat := by
  rcases le_total 0 x with positive | negative
  · have none : (-x).toNat = 0 := by omega
    rw [none, pow_zero, div_one, ← zpow_natCast, Int.toNat_of_nonneg positive]
  · have none : x.toNat = 0 := by omega
    rw [none, pow_zero, one_div, ← zpow_natCast, Int.toNat_of_nonneg (by omega), zpow_neg, inv_inv]

theorem ten_zpow_le_two_zpow {x y : Int} :
    (10 : ℚ) ^ x ≤ 2 ^ y ↔ 10 ^ x.toNat * 2 ^ (-y).toNat ≤ 2 ^ y.toNat * 10 ^ (-x).toNat := by
  rw [zpow_eq_div 10 x, zpow_eq_div 2 y, div_le_div_iff₀ (by positivity) (by positivity)]
  exact_mod_cast Iff.rfl

theorem two_zpow_le_ten_zpow {x y : Int} :
    (2 : ℚ) ^ y ≤ 10 ^ x ↔ 2 ^ y.toNat * 10 ^ (-x).toNat ≤ 10 ^ x.toNat * 2 ^ (-y).toNat := by
  rw [zpow_eq_div 10 x, zpow_eq_div 2 y, div_le_div_iff₀ (by positivity) (by positivity)]
  exact_mod_cast Iff.rfl

namespace FcvtContext

/-- The estimate is near enough to the logarithm. -/
def estimateFits (l : Int) : Bool :=
  10 ^ (estimate l - 1).toNat * 2 ^ (-l).toNat ≤ 2 ^ l.toNat * 10 ^ (-(estimate l - 1)).toNat &&
    2 ^ (l + 1).toNat * 10 ^ (-(estimate l + 1)).toNat ≤
      10 ^ (estimate l + 1).toNat * 2 ^ (-(l + 1)).toNat

theorem estimateFits_all : (List.range 2098).all (fun i => estimateFits ((i : Int) - 1074)) = true := by
  decide +kernel

theorem estimate_window {l : Int} (least : -1074 ≤ l) (most : l ≤ 1023) :
    (10 : ℚ) ^ (estimate l - 1) ≤ 2 ^ l ∧ (2 : ℚ) ^ (l + 1) ≤ 10 ^ (estimate l + 1) := by
  have fits := List.all_eq_true.mp estimateFits_all (l + 1074).toNat (List.mem_range.mpr (by omega))
  have same : (((l + 1074).toNat : Nat) : Int) - 1074 = l := by omega
  rw [same, estimateFits, Bool.and_eq_true, decide_eq_true_eq, decide_eq_true_eq] at fits
  exact ⟨ten_zpow_le_two_zpow.mpr fits.1, two_zpow_le_ten_zpow.mpr fits.2⟩

variable {ctxt : FcvtContext} {r s mp mm : Nat}

/-- `Dragon4_Fixup` brings the upper bound above 1. -/
theorem fixup_spec (denotes : ctxt.Denotes r s mp mm) (lower : mm ≤ mp) (bound : r + mp ≤ 10 * s)
    (more : s < (r + mp) * 10) (fits : s * 20 < (2 ^ 32) ^ last) :
    ∃ ctxt' r' mp' mm', ctxt.fixup = .ok ctxt' ∧ ctxt'.Denotes r' s mp' mm' ∧ s < r' + mp' ∧
      r' + mp' ≤ 10 * s ∧ ((ctxt'.k = ctxt.k + 1 ∧ r' = r ∧ mp' = mp ∧ mm' = mm) ∨
        ctxt'.k = ctxt.k ∧ r' = r * 10 ∧ mp' = mp * 10 ∧ mm' = mm * 10) := by
  obtain ⟨sum, computed, compared⟩ := compare_add_spec denotes (by omega)
  rw [decide_eq_decide] at compared
  unfold fixup
  rw [computed]
  by_cases high : s < r + mp
  · refine ⟨{ ctxt with k := ctxt.k + 1 }, r, mp, mm, if_pos (compared.mpr high), ?_, high, bound,
      .inl ⟨rfl, rfl, rfl, rfl⟩⟩
    exact { denotes with }
  · obtain ⟨ctxt', multiplied, denotes', k⟩ := times10_spec denotes lower (by omega)
    refine ⟨ctxt', r * 10, mp * 10, mm * 10, ?_, denotes', by omega, by omega, .inr ⟨k, rfl, rfl, rfl⟩⟩
    rw [← multiplied]
    exact if_neg fun gt => high (compared.mp gt)

/-- The numbers of one context are those of another one times a power of ten. -/
def Scales (k : Int) (r s r' s' : Nat) : Prop := (r' : ℚ) / s' * 10 ^ k = (r : ℚ) / s

/-- The numbers are smaller before they are scaled. -/
def large : Nat := 2 ^ 1100

theorem large_fits : large * 400 < (2 ^ 32) ^ 36 ∧ (2 ^ 32) ^ 36 < (2 ^ 32) ^ last := by
  decide +kernel

/-- `Dragon4_Scale` brings the upper bound above 1 and to 10 at most. -/
theorem scale_spec (denotes : ctxt.Denotes r s mp mm) (positive : 0 < s) (some : 0 < mm) (lower : mm ≤ mp)
    (someR : 0 < r) (smallS : s < large) (smallR : r + mp < large)
    (low : (10 : ℚ) ^ (estimate ctxt.log2v - 1) < ((r : ℚ) + mp) / s)
    (high : ((r : ℚ) + mp) / s ≤ 10 ^ (estimate ctxt.log2v + 1)) :
    ∃ ctxt' r' s' mp' mm', ctxt.scale = .ok ctxt' ∧ ctxt'.Denotes r' s' mp' mm' ∧ 0 < mm' ∧ mm' ≤ mp' ∧
      s' < r' + mp' ∧ r' + mp' ≤ 10 * s' ∧ s' * 20 < (2 ^ 32) ^ last ∧
      Scales (ctxt'.k - 1) r s r' s' ∧ Scales (ctxt'.k - 1) mp s mp' s' ∧ Scales (ctxt'.k - 1) mm s mm' s' := by
  have s' : (0 : ℚ) < s := by exact_mod_cast positive
  obtain ⟨capacity, larger⟩ := large_fits
  have power_fits := @pow_spec 10
  have product_fits := @mul_returns
  generalize (2 ^ 32) ^ 36 = room at capacity larger power_fits product_fits
  generalize large = bound at capacity smallS smallR
  -- The numbers times a power of ten, before the fixup.
  have fixes : ∀ (middle : FcvtContext) (r0 s0 mp0 mm0 : Nat), middle.Denotes r0 s0 mp0 mm0 → mm0 ≤ mp0 →
      0 < mm0 → 0 < s0 → r0 + mp0 ≤ 10 * s0 → s0 < (r0 + mp0) * 10 → s0 * 20 < (2 ^ 32) ^ last →
      Scales middle.k r s r0 s0 → Scales middle.k mp s mp0 s0 → Scales middle.k mm s mm0 s0 →
      ∃ ctxt' r' s' mp' mm', middle.fixup = .ok ctxt' ∧ ctxt'.Denotes r' s' mp' mm' ∧ 0 < mm' ∧
        mm' ≤ mp' ∧ s' < r' + mp' ∧ r' + mp' ≤ 10 * s' ∧ s' * 20 < (2 ^ 32) ^ last ∧
        Scales (ctxt'.k - 1) r s r' s' ∧ Scales (ctxt'.k - 1) mp s mp' s' ∧
        Scales (ctxt'.k - 1) mm s mm' s' := by
    intro middle r0 s0 mp0 mm0 denotes lower some positive bound more fits scaleR scaleMp scaleMm
    obtain ⟨ctxt', r', mp', mm', fixed, denotes', above, below, cases⟩ := fixup_spec denotes lower bound more fits
    have ten : ∀ {a b : Nat}, Scales middle.k a s b s0 → Scales (middle.k - 1) a s (b * 10) s0 := by
      intro a b scale
      unfold Scales at scale ⊢
      rw [← scale, zpow_sub_one₀ (by norm_num)]
      push_cast
      ring
    refine ⟨ctxt', r', s0, mp', mm', fixed, denotes', ?_, ?_, above, below, fits, ?_⟩
    · rcases cases with ⟨-, -, -, rfl⟩ | ⟨-, -, -, rfl⟩ <;> omega
    · rcases cases with ⟨-, -, rfl, rfl⟩ | ⟨-, -, rfl, rfl⟩ <;> omega
    · rcases cases with ⟨k, rfl, rfl, rfl⟩ | ⟨k, rfl, rfl, rfl⟩
      · rw [k, add_sub_cancel_right]
        exact ⟨scaleR, scaleMp, scaleMm⟩
      · rw [k]
        exact ⟨ten scaleR, ten scaleMp, ten scaleMm⟩
  unfold scale
  dsimp only
  by_cases nonnegative : 0 ≤ estimate ctxt.log2v
  · obtain ⟨k, isK⟩ : ∃ k : Nat, estimate ctxt.log2v = k := ⟨_, (Int.toNat_of_nonneg nonnegative).symm⟩
    have above : s * 10 ^ k < (r + mp) * 10 := by
      rw [isK, zpow_sub_one₀ (by norm_num), zpow_natCast, lt_div_iff₀ s'] at low
      have above : ((s * 10 ^ k : Nat) : ℚ) < ((r + mp) * 10 : Nat) := by
        push_cast
        linarith
      exact_mod_cast above
    have below : r + mp ≤ 10 * (s * 10 ^ k) := by
      rw [isK, zpow_add_one₀ (by norm_num), zpow_natCast, div_le_iff₀ s'] at high
      have below : ((r + mp : Nat) : ℚ) ≤ (10 * (s * 10 ^ k) : Nat) := by
        push_cast
        linarith
      exact_mod_cast below
    have power : 10 ^ k ≤ s * 10 ^ k := Nat.le_mul_of_pos_left _ positive
    obtain ⟨t1, raised, validT, valueT⟩ := @power_fits k (by decide) (by decide) (by omega)
    obtain ⟨s0, multiplied, validS, valueS⟩ := product_fits denotes.validS validT
      (by rw [denotes.valueS]; exact positive) (by rw [valueT]; positivity)
      (by rw [denotes.valueS, valueT]; omega)
    rw [denotes.valueS, valueT] at valueS
    have same : ∀ a : Nat, Scales k a s a (s * 10 ^ k) := by
      intro a
      unfold Scales
      rw [zpow_natCast]
      push_cast
      field_simp
    obtain ⟨ctxt', r', s', mp', mm', fixed, result⟩ := fixes { ctxt with k, s := s0 } r (s * 10 ^ k) mp mm
      { denotes with validS, valueS } lower some (by positivity) below above (by omega)
      (same r) (same mp) (same mm)
    refine ⟨ctxt', r', s', mp', mm', ?_, result⟩
    rw [isK, if_pos (Int.natCast_nonneg k), Int.toNat_natCast, raised]
    show (mul ctxt.s t1 >>= _) = _
    rw [bind_ok]
    exact ⟨s0, multiplied, fixed⟩
  obtain ⟨k, isK⟩ : ∃ k : Nat, estimate ctxt.log2v = -(k : Int) := ⟨(-estimate ctxt.log2v).toNat, by omega⟩
  have below : (r + mp) * 10 ^ k ≤ 10 * s := by
    rw [isK, zpow_add_one₀ (by norm_num), zpow_neg, zpow_natCast, div_le_iff₀ s'] at high
    have product : ((r : ℚ) + mp) * 10 ^ k ≤ ((10 ^ k)⁻¹ * 10 * s) * 10 ^ k :=
      mul_le_mul_of_nonneg_right high (by positivity)
    have cancel : ((10 : ℚ) ^ k)⁻¹ * 10 * s * 10 ^ k = 10 * s := by field_simp
    rw [cancel] at product
    exact_mod_cast product
  have above : s < (r + mp) * 10 ^ k * 10 := by
    rw [isK, zpow_sub_one₀ (by norm_num), zpow_neg, zpow_natCast, lt_div_iff₀ s'] at low
    have product : ((10 ^ k)⁻¹ * 10⁻¹ * (s : ℚ)) * (10 ^ k * 10) < ((r : ℚ) + mp) * (10 ^ k * 10) :=
      mul_lt_mul_of_pos_right low (by positivity)
    have cancel : ((10 : ℚ) ^ k)⁻¹ * 10⁻¹ * s * (10 ^ k * 10) = s := by field_simp
    rw [cancel] at product
    have above : (s : ℚ) < ((r + mp) * 10 ^ k * 10 : Nat) := by
      push_cast
      linarith
    exact_mod_cast above
  have split : (r + mp) * 10 ^ k = r * 10 ^ k + mp * 10 ^ k := Nat.add_mul _ _ _
  have power : 10 ^ k ≤ r * 10 ^ k := Nat.le_mul_of_pos_left _ someR
  have lower' : mm * 10 ^ k ≤ mp * 10 ^ k := Nat.mul_le_mul_right _ lower
  obtain ⟨t1, raised, validT, valueT⟩ := @power_fits k (by decide) (by decide) (by omega)
  have times : ∀ bn : Bignum, bn.Valid → 0 < bn.value → bn.value * 10 ^ k ≤ (r + mp) * 10 ^ k →
      ∃ res, mul bn t1 = .ok res ∧ res.Valid ∧ res.value = bn.value * 10 ^ k := by
    intro bn valid someBn small
    obtain ⟨res, computed, valid', value⟩ := product_fits valid validT someBn
      (by rw [valueT]; positivity) (by rw [valueT]; omega)
    exact ⟨res, computed, valid', by rw [value, valueT]⟩
  obtain ⟨r0, computedR, validR, valueR⟩ := times ctxt.r denotes.validR
    (by rw [denotes.valueR]; exact someR) (by rw [denotes.valueR]; omega)
  obtain ⟨mp0, mm0, computedMp, validMp, valueMp, computedMm, equal, unequal⟩ :=
    @Denotes.mm_spec ctxt r s mp mm denotes (fun bn => mul bn t1) (· * 10 ^ k) fun bn valid value =>
      times bn valid (by omega) (by rcases value with value | value <;> rw [value] <;> omega)
  rw [denotes.valueR] at valueR
  have same : ∀ a : Nat, Scales (-(k : Int)) a s (a * 10 ^ k) s := by
    intro a
    unfold Scales
    rw [zpow_neg, zpow_natCast]
    push_cast
    field_simp
  obtain ⟨ctxt', r', s', mp', mm', fixed, result⟩ :=
    fixes { ctxt with k := -k, r := r0, mp := mp0, mm := mm0 } (r * 10 ^ k) s (mp * 10 ^ k) (mm * 10 ^ k)
    ⟨validR, valueR, denotes.validS, denotes.valueS, validMp, valueMp, equal, unequal⟩ lower'
    (by positivity) positive (by omega) (by omega) (by omega) (same r) (same mp) (same mm)
  refine ⟨ctxt', r', s', mp', mm', ?_, result⟩
  rw [if_neg nonnegative]
  rw [isK, neg_neg, Int.toNat_natCast, raised]
  show (mul ctxt.r t1 >>= _) = _
  rw [bind_ok]
  refine ⟨r0, computedR, ?_⟩
  rw [bind_ok]
  refine ⟨mp0, computedMp, ?_⟩
  rw [bind_ok]
  exact ⟨mm0, computedMm, fixed⟩

/-- The quotients before the scaling: the number, and half the gaps to its neighbours. -/
structure Prepared (f : Nat) (e : Int) (narrow : Prop) [Decidable narrow] (r s mp mm : Nat) : Prop where
  positive : 0 < s
  some : 0 < mm
  lower : mm ≤ mp
  low : mm ≤ r
  smallS : s < large
  smallR : r + mp < large
  number : (r : ℚ) / s = f * 2 ^ e
  above : (mp : ℚ) / s = 2 ^ (e - 1)
  below : (mm : ℚ) / s = if narrow then 2 ^ (e - 2) else 2 ^ (e - 1)

theorem lt_large {n k : Nat} (below : n < 2 ^ k) (small : k ≤ 1100) : n < large := by
  have grows : 2 ^ k ≤ 2 ^ 1100 := by
    gcongr
    decide
  exact below.trans_le grows

/-- `Dragon4_Prepare`. -/
theorem prepare_spec (valid : ctxt.f.Valid) (some : 0 < ctxt.f.value) (bits : ctxt.f.value < 2 ^ 53)
    (least : -1074 ≤ ctxt.e) (most : ctxt.e ≤ 971) :
    ∃ ctxt' r s mp mm, ctxt.prepare = .ok ctxt' ∧ ctxt'.Denotes r s mp mm ∧ ctxt'.log2v = ctxt.log2v ∧
      Prepared ctxt.f.value ctxt.e (ctxt.isPow2 = true ∧ ¬(ctxt.e < 0 ∧ ctxt.isEmin = true)) r s mp mm := by
  generalize isF : ctxt.f.value = f at some bits
  by_cases nonnegative : 0 ≤ ctxt.e
  · obtain ⟨n, isE⟩ : ∃ n : Nat, ctxt.e = n := ⟨_, (Int.toNat_of_nonneg nonnegative).symm⟩
    have small : n ≤ 971 := by omega
    have powers : ∀ k, k ≤ 973 → ∃ res, pow2 k = .ok res ∧ res.Valid ∧ res.value = 2 ^ k := fun k below =>
      pow2_spec (by unfold last; omega)
    have products : ∀ k (t : Bignum), k ≤ 973 → t.Valid → t.value = 2 ^ k →
        ∃ res, mul ctxt.f t = .ok res ∧ res.Valid ∧ res.value = f * 2 ^ k := by
      intro k t below validT valueT
      have fits : f * 2 ^ k < (2 ^ 32) ^ 36 := by
        calc f * 2 ^ k < 2 ^ 53 * 2 ^ k := Nat.mul_lt_mul_of_pos_right bits (by positivity)
          _ = 2 ^ (53 + k) := (pow_add 2 53 k).symm
          _ ≤ (2 ^ 32) ^ 36 := by
            rw [← pow_mul]
            gcongr
            · decide
            · omega
      obtain ⟨res, computed, validRes, value⟩ := mul_returns valid validT (isF ▸ some)
        (by rw [valueT]; positivity) (by rw [isF, valueT]; exact fits)
      exact ⟨res, computed, validRes, by rw [value, isF, valueT]⟩
    have sums : ∀ k j, j ≤ k → f * 2 ^ k + 2 ^ j < 2 ^ (54 + k) := by
      intro k j less
      have one : 2 ^ j ≤ 2 ^ k := Nat.pow_le_pow_right (by decide) less
      calc f * 2 ^ k + 2 ^ j ≤ (f + 1) * 2 ^ k := by rw [Nat.add_mul, Nat.one_mul]; omega
        _ < 2 ^ 54 * 2 ^ k := Nat.mul_lt_mul_of_pos_right (by omega) (by positivity)
        _ = 2 ^ (54 + k) := (pow_add 2 54 k).symm
    unfold prepare
    rw [if_pos nonnegative]
    by_cases isPow2 : (!ctxt.isPow2) = true
    · rw [if_pos isPow2]
      obtain ⟨t, raised, validT, valueT⟩ := powers (n + 1) (by omega)
      obtain ⟨mp, raised', validMp, valueMp⟩ := powers n (by omega)
      obtain ⟨r, multiplied, validR, valueR⟩ := products (n + 1) t (by omega) validT valueT
      obtain ⟨validS, valueS⟩ := @int_spec 2 (by decide)
      refine ⟨{ ctxt with r, s := int 2, mp, equalM := true }, f * 2 ^ (n + 1), 2, 2 ^ n, 2 ^ n, ?_,
        ⟨validR, valueR, validS, valueS, validMp, valueMp, fun _ => rfl, fun no => by simp at no⟩, rfl, ?_⟩
      · have exponent : (ctxt.e + 1).toNat = n + 1 := by omega
        have exponent' : ctxt.e.toNat = n := by omega
        rw [exponent, exponent', raised, raised']
        show (mul ctxt.f t >>= _) = _
        rw [multiplied]
        rfl
      · have unit : 2 ^ n ≤ f * 2 ^ (n + 1) :=
          (Nat.pow_le_pow_right (by decide) (by omega)).trans (Nat.le_mul_of_pos_left _ some)
        refine ⟨by decide, by positivity, le_refl _, unit, @lt_large 2 2 (by decide) (by decide),
          lt_large (sums (n + 1) n (by omega)) (by omega), ?_, ?_, ?_⟩
        · rw [isE, zpow_natCast, pow_succ]
          push_cast
          ring
        · rw [isE, zpow_sub_one₀ (by norm_num), zpow_natCast]
          push_cast
          ring
        · rw [if_neg (fun both => by simp [both.1] at isPow2), isE, zpow_sub_one₀ (by norm_num), zpow_natCast]
          push_cast
          ring
    rw [if_neg isPow2]
    obtain ⟨t, raised, validT, valueT⟩ := powers (n + 2) (by omega)
    obtain ⟨mp, raised', validMp, valueMp⟩ := powers (n + 1) (by omega)
    obtain ⟨mm, raised'', validMm, valueMm⟩ := powers n (by omega)
    obtain ⟨r, multiplied, validR, valueR⟩ := products (n + 2) t (by omega) validT valueT
    obtain ⟨validS, valueS⟩ := @int_spec (2 * 2) (by decide)
    refine ⟨{ ctxt with r, s := int (2 * 2), mp, mm, equalM := false }, f * 2 ^ (n + 2), 2 * 2,
      2 ^ (n + 1), 2 ^ n, ?_, ⟨validR, valueR, validS, valueS, validMp, valueMp,
        fun no => by simp at no, fun _ => ⟨validMm, valueMm⟩⟩, rfl, ?_⟩
    · have exponent : (ctxt.e + 1 + 1).toNat = n + 2 := by omega
      have exponent' : (ctxt.e + 1).toNat = n + 1 := by omega
      have exponent'' : ctxt.e.toNat = n := by omega
      rw [exponent, exponent', exponent'', raised, raised', raised'']
      show (mul ctxt.f t >>= _) = _
      rw [multiplied]
      rfl
    · have unit : 2 ^ n ≤ f * 2 ^ (n + 2) :=
        (Nat.pow_le_pow_right (by decide) (by omega)).trans (Nat.le_mul_of_pos_left _ some)
      refine ⟨by decide, by positivity, Nat.pow_le_pow_right (by decide) (by omega), unit,
        @lt_large (2 * 2) 3 (by decide) (by decide), lt_large (sums (n + 2) (n + 1) (by omega)) (by omega),
        ?_, ?_, ?_⟩
      · rw [isE, zpow_natCast, pow_succ, pow_succ]
        push_cast
        ring
      · rw [isE, zpow_sub_one₀ (by norm_num), zpow_natCast, pow_succ]
        push_cast
        ring
      · rw [if_pos ⟨by simpa using isPow2, fun no => by omega⟩, isE, show (n : Int) - 2 = n - 1 - 1 by ring,
          zpow_sub_one₀ (by norm_num), zpow_sub_one₀ (by norm_num), zpow_natCast]
        push_cast
        ring
  · obtain ⟨n, isE⟩ : ∃ n : Nat, ctxt.e = -(n : Int) := ⟨(-ctxt.e).toNat, by omega⟩
    have small : n ≤ 1074 := by omega
    have powers : ∀ k, k ≤ 1076 → ∃ res, pow2 k = .ok res ∧ res.Valid ∧ res.value = 2 ^ k := fun k below =>
      pow2_spec (by unfold last; omega)
    have products : ∀ k, 0 < k → k ≤ 4 →
        ∃ res, mulInt ctxt.f k 0 = .ok res ∧ res.Valid ∧ res.value = f * k := by
      intro k positive below
      obtain ⟨res, computed, validRes, value⟩ := @mulInt_spec ctxt.f valid k 0 positive (by omega) (by decide) (by
        rw [isF]
        calc f * k + 0 ≤ 2 ^ 53 * 4 := Nat.mul_le_mul bits.le below
          _ < (2 ^ 32) ^ last := by decide)
      exact ⟨res, computed, validRes, by rw [value, isF, Nat.add_zero]⟩
    unfold prepare
    rw [if_neg nonnegative]
    by_cases whole : (ctxt.isEmin || !ctxt.isPow2) = true
    · obtain ⟨r, multiplied, validR, valueR⟩ := products 2 (by decide) (by decide)
      obtain ⟨s, raised, validS, valueS⟩ := powers (n + 1) (by omega)
      obtain ⟨validMp, valueMp⟩ := @int_spec 1 (by decide)
      refine ⟨{ ctxt with r, s, mp := int 1, equalM := true }, f * 2, 2 ^ (n + 1), 1, 1, ?_,
        ⟨validR, valueR, validS, valueS, validMp, valueMp, fun _ => rfl, fun no => by simp at no⟩, rfl, ?_⟩
      · have exponent : (-ctxt.e + 1).toNat = n + 1 := by omega
        rw [if_pos whole, exponent, multiplied]
        show (pow2 (n + 1) >>= _) = _
        rw [raised]
        rfl
      · have order : 2 ^ (n + 1) < 2 ^ (n + 2) := Nat.pow_lt_pow_right (by decide) (by omega)
        refine ⟨by positivity, by decide, le_refl _, by omega, lt_large order (by omega),
          @lt_large _ 55 (by omega) (by decide), ?_, ?_, ?_⟩
        · rw [isE, zpow_neg, zpow_natCast, pow_succ]
          push_cast
          field_simp
        · rw [isE, zpow_sub_one₀ (by norm_num), zpow_neg, zpow_natCast, pow_succ]
          push_cast
          field_simp
        · have wide : ¬(ctxt.isPow2 = true ∧ ¬(ctxt.e < 0 ∧ ctxt.isEmin = true)) := by
            rintro ⟨isPow2, other⟩
            rw [isPow2] at whole
            exact other ⟨by omega, by simpa using whole⟩
          rw [if_neg wide, isE, zpow_sub_one₀ (by norm_num), zpow_neg, zpow_natCast, pow_succ]
          push_cast
          field_simp
    obtain ⟨r, multiplied, validR, valueR⟩ := products (2 * 2) (by decide) (by decide)
    obtain ⟨s, raised, validS, valueS⟩ := powers (n + 2) (by omega)
    obtain ⟨validMp, valueMp⟩ := @int_spec 2 (by decide)
    obtain ⟨validMm, valueMm⟩ := @int_spec 1 (by decide)
    refine ⟨{ ctxt with r, s, mp := int 2, mm := int 1, equalM := false }, f * (2 * 2), 2 ^ (n + 2), 2, 1,
      ?_, ⟨validR, valueR, validS, valueS, validMp, valueMp, fun no => by simp at no,
        fun _ => ⟨validMm, valueMm⟩⟩, rfl, ?_⟩
    · have exponent : (-ctxt.e + 1 + 1).toNat = n + 2 := by omega
      rw [if_neg whole, exponent, multiplied]
      show (pow2 (n + 2) >>= _) = _
      rw [raised]
      rfl
    · have order : 2 ^ (n + 2) < 2 ^ (n + 3) := Nat.pow_lt_pow_right (by decide) (by omega)
      refine ⟨by positivity, by decide, by decide, by omega, lt_large order (by omega),
        @lt_large _ 56 (by omega) (by decide), ?_, ?_, ?_⟩
      · rw [isE, zpow_neg, zpow_natCast, pow_succ, pow_succ]
        push_cast
        field_simp
        ring
      · rw [isE, zpow_sub_one₀ (by norm_num), zpow_neg, zpow_natCast, pow_succ, pow_succ]
        push_cast
        field_simp
      · have narrow : ctxt.isPow2 = true ∧ ¬(ctxt.e < 0 ∧ ctxt.isEmin = true) := by
          simp only [Bool.or_eq_true, Bool.not_eq_true', not_or] at whole
          exact ⟨by simpa using whole.2, fun both => whole.1 both.2⟩
        rw [if_pos narrow, isE, show -(n : Int) - 2 = -n - 1 - 1 by ring, zpow_sub_one₀ (by norm_num),
          zpow_sub_one₀ (by norm_num), zpow_neg, zpow_natCast, pow_succ, pow_succ]
        push_cast
        field_simp

end FcvtContext

end Ghdl.Fcvt
