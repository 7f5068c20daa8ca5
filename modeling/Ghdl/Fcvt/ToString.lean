import Ghdl.Fcvt.Pack
import Ghdl.Fcvt.Scale

/-!
# The digits of a binary64 number

`To_String` takes the fields of a word apart and leaves the digits to Dragon4. The digits that it appends denote
a decimal number that is nearer to the number of the word than to every other binary64 number, and no decimal
number with fewer digits is.
-/

namespace Ghdl.Fcvt

open Bignum Fallible Numbers

/-- `Output_Nan_Inf`. -/
def outputNanInf (out : Output) (isInf : Bool) : Output :=
  if isInf then ((out.append 'i').append 'n').append 'f' else ((out.append 'n').append 'a').append 'n'

/-- The out parameters of `To_String`. `Exp` is not set when the word is not a number. -/
structure Converted where
  out : Output
  isNum : Bool
  isNeg : Bool
  exp : Option Int
  deriving DecidableEq, Repr

/-- The loop that computes `Log2v` of a denormal number. -/
def denormalLog2v (m : UInt64) : Nat → Int
  | 0 => -1022 - 53
  | i + 1 => if shl64 1 i ≤ m then -1022 - 53 + i + 1 else denormalLog2v m i

/-- The context for the exponent and fraction fields of a word. -/
def context (m : UInt64) (e : Nat) : FcvtContext :=
  let low := (m &&& 0xffffffff).toUInt32
  let high := (shr64 m 32 &&& 0xffffffff).toUInt32
  { f := if e = 0 then normalize ⟨[low, high]⟩ else ⟨[low, high ||| 0x100000]⟩
    e := if e = 0 then -1022 - 52 else e - 1023 - 52
    isPow2 := if e = 0 then false else m = 0
    isEmin := e = 0
    equalM := false
    log2v := if e = 0 then denormalLog2v m 52 else e - 1023
    k := 0
    r := ⟨[]⟩
    s := ⟨[]⟩
    mp := ⟨[]⟩
    mm := ⟨[]⟩ }

/-- `To_String`, with a bound for the steps of Dragon4. -/
def toString (fuel last : Nat) (v : UInt64) : Except FcvtError (Option Converted) :=
  let isNeg := shr64 v 63 = 1
  let m := v &&& 0xfffffffffffff
  let e := (shr64 v 52 &&& 0x7ff).toNat
  let out := ⟨last, [], 0⟩
  if e = 2047 then .ok (some ⟨outputNanInf out (m = 0), false, isNeg, none⟩)
  else
    let ctxt := context m e
    if !ctxt.f.isValid then .error .assertion
    else if ctxt.f.n = 0 then .ok (some ⟨out.append '0', true, isNeg, some 1⟩)
    else do
      let result ← ctxt.dragon4 fuel out
      .ok (result.map fun result => ⟨result.2, true, isNeg, some result.1.k⟩)

namespace FcvtContext

/-- What the digits of a number between two bounds are. -/
structure Shortest (low high : ℚ) (ds : List Nat) (k : Int) : Prop where
  digits : ∀ d ∈ ds, d < 10
  leading : ∃ d ds', ds = d :: ds' ∧ d ≠ 0
  length : ds.length ≤ 17
  above : low < fraction 10 ds * 10 ^ k
  below : fraction 10 ds * 10 ^ k < high
  shortest : ∀ (ds' : List Nat) (k' : Int), (∀ d ∈ ds', d < 10) → ds'.length < ds.length →
    ¬(low < fraction 10 ds' * 10 ^ k' ∧ fraction 10 ds' * 10 ^ k' < high)

variable {ctxt : FcvtContext}

theorem Scales.bounds {k : Int} {r s r' s' mp mp' : Nat} (scaleR : Scales k r s r' s')
    (scaleMp : Scales k mp s mp' s') : (((r' : ℚ) - mp') / s' * 10 ^ k = (r : ℚ) / s - mp / s) ∧
      ((r' : ℚ) + mp') / s' * 10 ^ k = (r : ℚ) / s + mp / s := by
  unfold Scales at scaleR scaleMp
  rw [sub_div, add_div, ← scaleR, ← scaleMp]
  exact ⟨by ring, by ring⟩

theorem dragon4_spec (valid : ctxt.f.Valid) (some : 0 < ctxt.f.value) (bits : ctxt.f.value < 2 ^ 53)
    (least : -1074 ≤ ctxt.e) (most : ctxt.e ≤ 971) (leastLog : -1074 ≤ ctxt.log2v)
    (mostLog : ctxt.log2v ≤ 1023) (below : (2 : ℚ) ^ ctxt.log2v ≤ ctxt.f.value * 2 ^ ctxt.e)
    (above : (ctxt.f.value : ℚ) * 2 ^ ctxt.e + 2 ^ (ctxt.e - 1) ≤ 2 ^ (ctxt.log2v + 1)) {narrow : Prop}
    [Decidable narrow] (isNarrow : narrow ↔ ctxt.isPow2 = true ∧ ¬(ctxt.e < 0 ∧ ctxt.isEmin = true))
    (power : narrow → ctxt.f.value = 2 ^ 52) :
    ∃ ds k, Shortest (ctxt.f.value * 2 ^ ctxt.e - if narrow then 2 ^ (ctxt.e - 2) else 2 ^ (ctxt.e - 1))
        (ctxt.f.value * 2 ^ ctxt.e + 2 ^ (ctxt.e - 1)) ds k ∧ ∀ fuel out, 17 ≤ fuel → ∃ ctxt', ctxt.dragon4 fuel out =
        .ok (Option.some (ctxt', ds.foldl Output.appendDigit out)) ∧ ctxt'.k = k := by
  obtain ⟨ctxt₁, r, s, mp, mm, prepared, denotes, log2v, numbers⟩ := prepare_spec valid some bits least most
  have unit : (0 : ℚ) < 2 ^ ctxt.e := by positivity
  have half : (2 : ℚ) ^ (ctxt.e - 1) = 2 ^ ctxt.e / 2 := by
    rw [zpow_sub_one₀ (by norm_num)]
    rfl
  have quarter : (2 : ℚ) ^ (ctxt.e - 2) = 2 ^ ctxt.e / 4 := by
    rw [show ctxt.e - 2 = ctxt.e - 1 - 1 by ring, zpow_sub_one₀ (by norm_num), zpow_sub_one₀ (by norm_num)]
    ring
  have gap : (mm : ℚ) / s = if narrow then 2 ^ (ctxt.e - 2) else 2 ^ (ctxt.e - 1) := by
    rw [numbers.below]
    exact if_congr isNarrow.symm rfl rfl
  have s' : (0 : ℚ) < s := by exact_mod_cast numbers.positive
  have upper : ((r : ℚ) + mp) / s = ctxt.f.value * 2 ^ ctxt.e + 2 ^ (ctxt.e - 1) := by
    rw [add_div, numbers.number, numbers.above]
  obtain ⟨first, second⟩ := estimate_window leastLog mostLog
  obtain ⟨ctxt₂, r', s₂, mp', mm', scaled, denotes', someMm, lower, more, bound, fits, scaleR, scaleMp,
      scaleMm⟩ := scale_spec denotes numbers.positive numbers.some numbers.lower
    (numbers.some.trans_le numbers.low) numbers.smallS numbers.smallR
    (by
      rw [log2v, upper, half]
      linarith)
    (by
      rw [log2v, upper]
      exact above.trans second)
  have tens : (0 : ℚ) < 10 ^ (ctxt₂.k - 1) := by positivity
  obtain ⟨-, upper'⟩ := scaleR.bounds scaleMp
  obtain ⟨lower', -⟩ := scaleR.bounds scaleMm
  rw [numbers.number, numbers.above] at upper'
  rw [numbers.number, gap] at lower'
  have positive : 0 < s₂ := by omega
  have s₂' : (0 : ℚ) < s₂ := by exact_mod_cast positive
  -- Seventeen digits are enough.
  have enough : s₂ < (mm' + mp') * 10 ^ 16 := by
    have wide : ctxt.f.value * 2 ^ ctxt.e + 2 ^ (ctxt.e - 1) < ((mm : ℚ) / s + mp / s) * 10 ^ 16 := by
      rw [gap, numbers.above, half, quarter]
      have f' : (ctxt.f.value : ℚ) ≤ 2 ^ 53 := by exact_mod_cast bits.le
      split
      · next narrow =>
        rw [power narrow]
        push_cast
        linarith
      · have product : (ctxt.f.value : ℚ) * 2 ^ ctxt.e ≤ 2 ^ 53 * 2 ^ ctxt.e := mul_le_mul_of_nonneg_right f' unit.le
        linarith
    unfold Scales at scaleMm scaleMp
    rw [← upper', ← scaleMm, ← scaleMp] at wide
    have wide : ((r' : ℚ) + mp') / s₂ * 10 ^ (ctxt₂.k - 1) <
        ((mm' : ℚ) + mp') * 10 ^ 16 / s₂ * 10 ^ (ctxt₂.k - 1) := by
      calc ((r' : ℚ) + mp') / s₂ * 10 ^ (ctxt₂.k - 1) < _ := wide
        _ = _ := by ring
    have wide := lt_of_mul_lt_mul_right wide tens.le
    rw [div_lt_div_iff_of_pos_right s₂'] at wide
    have wide : r' + mp' < (mm' + mp') * 10 ^ 16 := by exact_mod_cast wide
    omega
  obtain ⟨ds, free⟩ := @FreeFormat.exists_digits 10 s₂ r' mp' mm' 16 enough
  have length := free.length_le enough
  have atLeast : mm' ≤ r' := by
    have order : (mm : ℚ) / s ≤ r / s := div_le_div_of_nonneg_right (by exact_mod_cast numbers.low) s'.le
    unfold Scales at scaleMm scaleR
    rw [← scaleMm, ← scaleR] at order
    have order := le_of_mul_le_mul_right order tens
    rw [div_le_div_iff_of_pos_right s₂'] at order
    exact_mod_cast order
  have shift : ∀ (q : ℚ) (e : Int), q * 10 ^ e = q * 10 ^ (e - (ctxt₂.k - 1)) * 10 ^ (ctxt₂.k - 1) := by
    intro q e
    rw [mul_assoc, ← zpow_add₀ (by norm_num), sub_add_cancel]
  obtain ⟨belowDigits, aboveDigits⟩ := free.between positive (by omega) (by decide)
  refine ⟨ds, ctxt₂.k, ⟨free.digits_lt positive (by omega) (by decide) bound,
    free.head_ne_zero positive atLeast more, length, ?_, ?_, fun ds' k' digits shorter => ?_⟩,
    fun fuel out limit => ?_⟩
  · rw [← lower', shift (fraction 10 ds), show ctxt₂.k - (ctxt₂.k - 1) = 1 by ring, zpow_one]
    exact mul_lt_mul_of_pos_right (by exact_mod_cast belowDigits) tens
  · rw [← upper', shift (fraction 10 ds), show ctxt₂.k - (ctxt₂.k - 1) = 1 by ring, zpow_one]
    exact mul_lt_mul_of_pos_right (by exact_mod_cast aboveDigits) tens
  · rw [← lower', ← upper', shift (fraction 10 ds')]
    rintro ⟨left, right⟩
    refine free.not_shorter positive (by decide) atLeast more digits shorter (k' - (ctxt₂.k - 1)) ⟨?_, ?_⟩
    · simpa only [Nat.cast_ofNat] using lt_of_mul_lt_mul_right left tens.le
    · simpa only [Nat.cast_ofNat] using lt_of_mul_lt_mul_right right tens.le
  · obtain ⟨ctxt₃, generated, k⟩ := generate_spec free out denotes' bound (by omega) lower fits (length.trans limit)
    refine ⟨ctxt₃, ?_, k⟩
    unfold dragon4
    rw [bind_ok]
    refine ⟨ctxt₁, prepared, ?_⟩
    rw [bind_ok]
    exact ⟨ctxt₂, scaled, generated⟩

end FcvtContext

/-- The fields as the code takes them. -/
theorem fields_eq (v : UInt64) :
    (decide (shr64 v 63 = 1) = signBit v) ∧ (v &&& 0xfffffffffffff).toNat = fractionField v ∧
      (shr64 v 52 &&& 0x7ff).toNat = exponentField v := by
  refine ⟨?_, ?_, ?_⟩
  · have bit : (shr64 v 63).toNat = v.toNat / 2 ^ 63 := shr64_toNat v 63
    have small := v.toNat_lt
    rw [signBit, decide_eq_decide, ← UInt64.toNat_inj, bit]
    simp
    omega
  · rw [UInt64.toNat_and]
    exact Nat.and_two_pow_sub_one_eq_mod _ 52
  · rw [UInt64.toNat_and, shr64_toNat]
    exact Nat.and_two_pow_sub_one_eq_mod _ 11

theorem denormalLog2v_spec {m : UInt64} (nonzero : m ≠ 0) {n : Nat} (bits : m.toNat < 2 ^ n) (small : n ≤ 52) :
    ∃ i < n, 2 ^ i ≤ m.toNat ∧ m.toNat < 2 ^ (i + 1) ∧ denormalLog2v m n = i + -1074 := by
  induction n with
  | zero =>
    rw [pow_zero] at bits
    exact absurd (UInt64.toNat_inj.mp (show m.toNat = (0 : UInt64).toNat by simp; omega)) nonzero
  | succ n ih =>
    have weight : (shl64 1 n).toNat = 2 ^ n := by
      have fits : 2 ^ n < 2 ^ 64 := Nat.pow_lt_pow_right (by decide) (by omega)
      rw [shl64_toNat, UInt64.toNat_one, Nat.one_mul, Nat.mod_eq_of_lt fits]
    unfold denormalLog2v
    by_cases high : shl64 1 n ≤ m
    · refine ⟨n, Nat.lt_succ_self n, ?_, bits, ?_⟩
      · rw [← weight]
        exact UInt64.le_iff_toNat_le.mp high
      · rw [if_pos high]
        ring
    have low : m.toNat < 2 ^ n := by
      rw [← weight]
      exact Nat.lt_of_not_le fun le => high (UInt64.le_iff_toNat_le.mpr le)
    obtain ⟨i, less, bit, next, log⟩ := ih low (by omega)
    exact ⟨i, Nat.lt_succ_of_lt less, bit, next, by rw [if_neg high, log]⟩

theorem context_f {m : UInt64} (bits : m.toNat < 2 ^ 52) (e : Nat) :
    (context m e).f.Valid ∧ (context m e).f.value = if e = 0 then m.toNat else 2 ^ 52 + m.toNat := by
  have low : ((m &&& 0xffffffff).toUInt32).toNat = m.toNat % 2 ^ 32 := by
    rw [UInt64.toNat_toUInt32, UInt64.toNat_and]
    have mask := Nat.and_two_pow_sub_one_eq_mod m.toNat 32
    have mask : m.toNat &&& (0xffffffff : UInt64).toNat = m.toNat % 2 ^ 32 := mask
    rw [mask]
    exact Nat.mod_mod _ _
  have high : ((shr64 m 32 &&& 0xffffffff).toUInt32).toNat = m.toNat / 2 ^ 32 := by
    rw [UInt64.toNat_toUInt32, UInt64.toNat_and, shr64_toNat]
    have mask := Nat.and_two_pow_sub_one_eq_mod (m.toNat / 2 ^ 32) 32
    have mask : m.toNat / 2 ^ 32 &&& (0xffffffff : UInt64).toNat = m.toNat / 2 ^ 32 % 2 ^ 32 := mask
    rw [mask]
    omega
  unfold context
  generalize (m &&& 0xffffffff).toUInt32 = d at low
  generalize (shr64 m 32 &&& 0xffffffff).toUInt32 = e' at high
  dsimp only
  by_cases denormal : e = 0
  · rw [if_pos denormal, if_pos denormal]
    refine ⟨normalize_valid (by simp [n, last]), ?_⟩
    rw [(normalize_spec _).2.1]
    show digitsValue [d, e'] = _
    simp only [digitsValue_cons, digitsValue_nil, low, high]
    omega
  rw [if_neg denormal, if_neg denormal]
  have bit : (e' ||| 0x100000).toNat = 2 ^ 20 + m.toNat / 2 ^ 32 := by
    rw [UInt32.or_comm, UInt32.toNat_or, high]
    exact (Nat.two_pow_add_eq_or_of_lt (show m.toNat / 2 ^ 32 < 2 ^ 20 by omega) 1).symm
  refine ⟨⟨by simp [n, last], fun zero => ?_⟩, ?_⟩
  · have zero : e' ||| 0x100000 = 0 := Option.some.inj zero
    rw [zero] at bit
    simp at bit
    omega
  · show digitsValue [d, e' ||| 0x100000] = _
    simp only [digitsValue_cons, digitsValue_nil, low, bit]
    omega

/-- The magnitudes of the binary64 numbers, and what a larger exponent field would give. -/
def binary64 : Set ℚ := boundedFloats 53 (-1074)

theorem log_window {f i : Nat} (low : 2 ^ i ≤ f) (high : f < 2 ^ (i + 1)) (e : Int) :
    (2 : ℚ) ^ ((i : Int) + e) ≤ f * 2 ^ e ∧ (f : ℚ) * 2 ^ e + 2 ^ (e - 1) ≤ 2 ^ ((i : Int) + e + 1) := by
  have unit : (0 : ℚ) < 2 ^ e := by positivity
  have low : (2 : ℚ) ^ i ≤ f := by exact_mod_cast low
  have high : (f : ℚ) + 1 ≤ 2 ^ (i + 1) := by exact_mod_cast high
  constructor
  · rw [zpow_add₀ (by norm_num), zpow_natCast]
    exact mul_le_mul_of_nonneg_right low unit.le
  · have product : ((f : ℚ) + 1) * 2 ^ e ≤ 2 ^ (i + 1) * 2 ^ e := mul_le_mul_of_nonneg_right high unit.le
    rw [show (i : Int) + e + 1 = ((i + 1 : Nat) : Int) + e by push_cast; ring, zpow_add₀ (by norm_num) _ e,
      zpow_natCast, zpow_sub_one₀ (by norm_num)]
    linarith

theorem adjacent_above {f : Nat} {e : Int} (bits : f < 2 ^ 53) (least : -1074 ≤ e) (normal : 2 ^ 52 ≤ f ∨ e = -1074) :
    Adjacent binary64 (f * 2 ^ e) (((f + 1 : Nat) : ℚ) * 2 ^ e) :=
  adjacent_boundedFloats (by decide) bits least normal

theorem rounds_wide {f : Nat} {e : Int} {q : ℚ} (bits : f < 2 ^ 53) (some : 0 < f) (least : -1074 ≤ e)
    (normal : 2 ^ 52 < f ∨ e = -1074) :
    q ∈ Rounds binary64 (f * 2 ^ e) ↔ f * 2 ^ e - 2 ^ (e - 1) < q ∧ q < f * 2 ^ e + 2 ^ (e - 1) := by
  have above := adjacent_above bits least (normal.imp_left le_of_lt)
  have below : Adjacent binary64 ((f - 1 : Nat) * 2 ^ e) (f * 2 ^ e) := by
    have next := @adjacent_above (f - 1) e (by omega) least (normal.imp_left (by omega))
    rwa [Nat.sub_add_cancel some] at next
  rw [below.rounds_iff above, Nat.cast_sub some, zpow_sub_one₀ (by norm_num)]
  push_cast
  constructor
  all_goals exact fun ⟨left, right⟩ => ⟨by linarith, by linarith⟩

theorem rounds_narrow {e : Int} {q : ℚ} (least : -1074 < e) : q ∈ Rounds binary64 ((2 ^ 52 : Nat) * 2 ^ e) ↔
      ((2 ^ 52 : Nat) : ℚ) * 2 ^ e - 2 ^ (e - 2) < q ∧ q < (2 ^ 52 : Nat) * 2 ^ e + 2 ^ (e - 1) := by
  have above := @adjacent_above (2 ^ 52) e (by decide) least.le (.inl (le_refl _))
  have half : (2 : ℚ) ^ (e - 1) = 2 ^ e / 2 := by
    rw [zpow_sub_one₀ (by norm_num)]
    rfl
  have quarter : (2 : ℚ) ^ (e - 2) = 2 ^ e / 4 := by
    rw [show e - 2 = e - 1 - 1 by ring, zpow_sub_one₀ (by norm_num), half]
    ring
  have below : Adjacent binary64 ((2 ^ 53 - 1 : Nat) * 2 ^ (e - 1)) ((2 ^ 52 : Nat) * 2 ^ e) := by
    have next := @adjacent_above (2 ^ 53 - 1) (e - 1) (by decide) (by omega) (.inl (by decide))
    have same : (((2 ^ 53 - 1 : Nat) + 1 : Nat) : ℚ) * 2 ^ (e - 1) = (2 ^ 52 : Nat) * 2 ^ e := by
      rw [half]
      norm_num
      ring
    rwa [same] at next
  rw [below.rounds_iff above, half, quarter]
  push_cast
  constructor
  all_goals exact fun ⟨left, right⟩ => ⟨by linarith, by linarith⟩

theorem least_normal_long {ds : List Nat} (digits : ∀ d ∈ ds, d < 10) (short : ds.length ≤ 16) (k : Int) :
    ¬(((2 ^ 52 : Nat) : ℚ) * 2 ^ (-1074 : Int) - 2 ^ (-1074 - 1 : Int) < fraction 10 ds * 10 ^ k ∧
      fraction 10 ds * 10 ^ k < (2 ^ 52 : Nat) * 2 ^ (-1074 : Int) + 2 ^ (-1074 - 1 : Int)) := by
  obtain ⟨m, small, eq⟩ := exists_fraction_eq (by decide) digits
  have small : m < 10 ^ 16 := small.trans_le (Nat.pow_le_pow_right (by decide) short)
  have value : fraction 10 ds * 10 ^ k = m * (10 : ℚ) ^ (k - ds.length) := by
    rw [eq, zpow_sub₀ (by norm_num), zpow_natCast]
    push_cast
    ring
  have unit : (2 : ℚ) ^ (-1074 - 1 : Int) = 1 / 2 ^ 1075 := by
    rw [show (-1074 - 1 : Int) = -((1075 : Nat) : Int) by norm_num, zpow_neg, zpow_natCast, one_div]
  have double : (2 : ℚ) ^ (-1074 : Int) = 2 * (1 / 2 ^ 1075) := by
    rw [← unit, zpow_sub_one₀ (by norm_num)]
    ring
  have facts : 2225073858507201 * 2 ^ 1075 ≤ (2 ^ 53 - 1) * 10 ^ 323 ∧
      (2 ^ 53 + 1) * 10 ^ 323 ≤ (2225073858507201 + 1) * 2 ^ 1075 ∧ 2 ^ 1075 ≤ (2 ^ 53 - 1) * 10 ^ 308 := by
    decide +kernel
  obtain ⟨floor, ceiling, least⟩ := facts
  have someA : 0 < 2 ^ 1075 := Nat.two_pow_pos _
  have castA : ((2 ^ 1075 : Nat) : ℚ) = 2 ^ 1075 := by rw [Nat.cast_pow, Nat.cast_ofNat]
  rw [value, unit, double, ← castA]
  generalize 2 ^ 1075 = a at floor ceiling least someA
  have a' : (0 : ℚ) < a := by exact_mod_cast someA
  rintro ⟨low, high⟩
  have low : ((2 ^ 53 - 1 : Nat) : ℚ) / a < m * 10 ^ (k - ds.length) := by
    calc ((2 ^ 53 - 1 : Nat) : ℚ) / a = (2 ^ 52 : Nat) * (2 * (1 / a)) - 1 / a := by
          norm_num
          ring
      _ < _ := low
  have high : (m : ℚ) * 10 ^ (k - ds.length) < ((2 ^ 53 + 1 : Nat) : ℚ) / a := by
    calc (m : ℚ) * 10 ^ (k - ds.length) < _ := high
      _ = ((2 ^ 53 + 1 : Nat) : ℚ) / a := by
          norm_num
          ring
  by_cases aligned : -323 ≤ k - ds.length
  · -- A multiple of the weight of the sixteenth digit.
    obtain ⟨j, isJ⟩ : ∃ j : Nat, k - ds.length = j + -(323 : Nat) := ⟨(k - ds.length + 323).toNat, by omega⟩
    have multiple : (m : ℚ) * 10 ^ (k - ds.length) = ((m * 10 ^ j : Nat) : ℚ) / (10 ^ 323 : Nat) := by
      rw [isJ, zpow_add₀ (by norm_num), zpow_neg, zpow_natCast, zpow_natCast]
      push_cast
      ring
    rw [multiple] at low high
    have someB : 0 < 10 ^ 323 := Nat.pow_pos (by decide)
    generalize 10 ^ 323 = b at floor ceiling low high someB
    have b' : (0 : ℚ) < b := by exact_mod_cast someB
    rw [div_lt_div_iff₀ a' b'] at low
    rw [div_lt_div_iff₀ b' a'] at high
    have low : (2 ^ 53 - 1) * b < m * 10 ^ j * a := by exact_mod_cast low
    have high : m * 10 ^ j * a < (2 ^ 53 + 1) * b := by exact_mod_cast high
    have more := Nat.lt_of_mul_lt_mul_right (floor.trans_lt low)
    have less := Nat.lt_of_mul_lt_mul_right (high.trans_le ceiling)
    omega
  -- A smaller number.
  have scale : (10 : ℚ) ^ (k - ds.length) ≤ 10 ^ (-(324 : Nat) : Int) :=
    zpow_le_zpow_right₀ (by norm_num) (by push_cast; omega)
  have tiny : (m : ℚ) * 10 ^ (k - ds.length) ≤ 1 / (10 ^ 308 : Nat) := by
    calc (m : ℚ) * 10 ^ (k - ds.length) ≤ 10 ^ 16 * 10 ^ (-(324 : Nat) : Int) :=
          mul_le_mul (by exact_mod_cast small.le) scale (by positivity) (by positivity)
      _ = 1 / (10 ^ 308 : Nat) := by
          rw [← zpow_natCast (10 : ℚ) 16, ← zpow_add₀ (by norm_num),
            show ((16 : Nat) : Int) + -(324 : Nat) = -(308 : Nat) by norm_num, zpow_neg, zpow_natCast,
            one_div]
          push_cast
          rfl
  have someB : 0 < 10 ^ 308 := Nat.pow_pos (by decide)
  generalize 10 ^ 308 = b at least tiny someB
  have b' : (0 : ℚ) < b := by exact_mod_cast someB
  have order : (1 : ℚ) / b ≤ (2 ^ 53 - 1 : Nat) / a := by
    rw [div_le_div_iff₀ b' a', one_mul]
    exact_mod_cast least
  linarith

namespace Output

theorem appendDigits_eq (last : Nat) (ds : List Nat) :
    ds.foldl appendDigit ⟨last, [], 0⟩ = ⟨last, (ds.map digitChar).take last, ds.length⟩ := by
  induction ds using List.reverseRecOn with
  | nil => simp
  | append_singleton ds d ih =>
    rw [List.foldl_append, ih, List.foldl_cons, List.foldl_nil, appendDigit, append, List.map_append,
      List.length_append]
    by_cases room : 1 + ds.length ≤ last
    · rw [if_pos room, List.take_of_length_le (by simp; omega), List.take_of_length_le (by simp; omega)]
      rfl
    · rw [if_neg room, List.take_append_of_le_length (by simp; omega)]
      rfl

end Output

/-- The digits that `To_String` appends for a number, and its exponent. -/
structure Converts (v : UInt64) (x : ℚ) (ds : List Nat) (k : Int) : Prop where
  digits : ∀ d ∈ ds, d < 10
  leading : ∃ d ds', ds = d :: ds' ∧ d ≠ 0
  length : ds.length ≤ 17
  rounds : fraction 10 ds * 10 ^ k ∈ Rounds binary64 x
  shortest : ∀ (ds' : List Nat) (k' : Int), (∀ d ∈ ds', d < 10) → ds'.length < ds.length →
    fraction 10 ds' * 10 ^ k' ∉ Rounds binary64 x
  returns : ∀ fuel last, 17 ≤ fuel → toString fuel last v =
    .ok (some ⟨⟨last, (ds.map Output.digitChar).take last, ds.length⟩, true, signBit v, some k⟩)

theorem toString_eq {v : UInt64} {e : Nat} (isE : exponentField v = e) (small : e ≠ 2047)
    {ds : List Nat} {k : Int} (valid : (context (v &&& 0xfffffffffffff) e).f.Valid)
    (positive : 0 < (context (v &&& 0xfffffffffffff) e).f.value) {fuel last : Nat}
    (dragon4 : ∀ out, ∃ ctxt', (context (v &&& 0xfffffffffffff) e).dragon4 fuel out =
      .ok (some (ctxt', ds.foldl Output.appendDigit out)) ∧ ctxt'.k = k) : toString fuel last v =
      .ok (some ⟨⟨last, (ds.map Output.digitChar).take last, ds.length⟩, true, signBit v, some k⟩) := by
  obtain ⟨sign, -, exponent⟩ := fields_eq v
  obtain ⟨ctxt', converted, isK⟩ := dragon4 ⟨last, [], 0⟩
  have nonzero : (context (v &&& 0xfffffffffffff) e).f.n ≠ 0 := (value_pos valid.normal).mp positive
  unfold toString
  dsimp only
  rw [exponent, isE, if_neg small, if_neg (by simp [isValid_iff.mpr valid]), if_neg nonzero, bind_ok]
  refine ⟨_, converted, ?_⟩
  rw [Option.map_some, Output.appendDigits_eq, isK, sign]

theorem toString_converts {v : UInt64} {x : ℚ} (finite : magnitude v = .finite x) (nonzero : x ≠ 0) :
    ∃ ds k, Converts v x ds k := by
  obtain ⟨-, isM, -⟩ := fields_eq v
  have bits : fractionField v < 2 ^ 52 := Nat.mod_lt _ (by decide)
  have field : exponentField v < 2 ^ 11 := Nat.mod_lt _ (by decide)
  unfold magnitude at finite
  by_cases special : exponentField v = 2047
  · rw [if_pos special] at finite
    split at finite <;> simp at finite
  rw [if_neg special] at finite
  generalize isE : exponentField v = e at finite special field
  generalize isV : v &&& 0xfffffffffffff = m at isM
  have mBits : m.toNat < 2 ^ 52 := isM ▸ bits
  obtain ⟨valid, value⟩ := context_f mBits e
  by_cases denormal : e = 0
  · -- The least exponent.
    subst denormal
    rw [if_pos rfl, Magnitude.finite.injEq] at finite
    rw [if_pos rfl] at value
    have some : m ≠ 0 := by
      rintro rfl
      refine nonzero ?_
      rw [← finite, ← isM]
      simp
    have positive : 0 < m.toNat := Nat.pos_of_ne_zero fun zero => some (UInt64.toNat_inj.mp zero)
    obtain ⟨i, less, low, high, log⟩ := denormalLog2v_spec some mBits (le_refl _)
    obtain ⟨below, above⟩ := log_window low high (-1074)
    have isLog : (context m 0).log2v = i + -1074 := log
    obtain ⟨ds, k, short, converts⟩ := @FcvtContext.dragon4_spec (context m 0) valid (value ▸ positive)
      (by omega) (le_refl _) (by decide : (-1022 - 52 : Int) ≤ 971) (by omega) (by omega)
      (by rw [isLog, value]; exact below)
      (by rw [isLog, value]; exact above) False _ (by simp [context]) (fun no => no.elim)
    rw [value, if_neg not_false] at short
    have rounds : ∀ q, q ∈ Rounds binary64 x ↔
        (m.toNat : ℚ) * 2 ^ (-1074 : Int) - 2 ^ (-1074 - 1 : Int) < q ∧
          q < (m.toNat : ℚ) * 2 ^ (-1074 : Int) + 2 ^ (-1074 - 1 : Int) := by
      intro q
      rw [← finite, ← isM]
      exact rounds_wide (by omega) positive (le_refl _) (.inr rfl)
    refine ⟨ds, k, short.digits, short.leading, short.length, (rounds _).mpr ⟨short.above, short.below⟩,
      fun ds' k' digits shorter inside => short.shortest ds' k' digits shorter ((rounds _).mp inside),
      fun fuel last enough => toString_eq isE special (isV ▸ valid) (by rw [isV, value]; exact positive)
        fun out => by rw [isV]; exact converts fuel out enough⟩
  rw [if_neg denormal, Magnitude.finite.injEq] at finite
  rw [if_neg denormal] at value
  have isX : x = (2 ^ 52 + m.toNat : Nat) * 2 ^ ((e : Int) - 1075) := by rw [← finite, isM]
  have isExponent : (context m e).e = (e : Int) - 1075 := by
    show (if e = 0 then _ else _) = _
    rw [if_neg denormal]
    ring
  have isLog : (context m e).log2v = (52 : Nat) + ((e : Int) - 1075) := by
    show (if e = 0 then _ else _) = _
    rw [if_neg denormal]
    push_cast
    ring
  have isPow2 : (context m e).isPow2 = decide (m = 0) := by
    show (if e = 0 then _ else _) = _
    rw [if_neg denormal]
  have isEmin : (context m e).isEmin = false := decide_eq_false denormal
  obtain ⟨below, above⟩ := @log_window (2 ^ 52 + m.toNat) 52 (by omega) (by omega) ((e : Int) - 1075)
  obtain ⟨ds, k, short, converts⟩ := @FcvtContext.dragon4_spec (context m e) valid (by omega)
    (by omega) (by omega) (by omega) (by omega) (by omega)
    (by rw [isLog, value, isExponent]; exact below) (by rw [isLog, value, isExponent]; exact above)
    (m = 0) _ (by simp [isPow2, isEmin]) (fun zero => by rw [value, zero]; rfl)
  rw [value, isExponent] at short
  have returns : ∀ fuel last, 17 ≤ fuel → toString fuel last v = .ok (some
      ⟨⟨last, (ds.map Output.digitChar).take last, ds.length⟩, true, signBit v, some k⟩) := by
    intro fuel last enough
    exact toString_eq isE special (isV ▸ valid) (by rw [isV, value]; omega)
      fun out => by rw [isV]; exact converts fuel out enough
  by_cases power : m = 0
  · rw [if_pos power, power] at short
    rw [power] at isX
    by_cases least : e = 1
    · -- The gaps of the least normal number are equal.
      have rounds : ∀ q, q ∈ Rounds binary64 x ↔
          ((2 ^ 52 : Nat) : ℚ) * 2 ^ (-1074 : Int) - 2 ^ (-1074 - 1 : Int) < q ∧
            q < (2 ^ 52 : Nat) * 2 ^ (-1074 : Int) + 2 ^ (-1074 - 1 : Int) := by
        intro q
        rw [isX, least]
        exact rounds_wide (by decide) (by decide) (by decide) (.inr rfl)
      rw [least] at short
      refine ⟨ds, k, short.digits, short.leading, short.length, (rounds _).mpr ⟨?_, short.below⟩,
        fun ds' k' digits shorter inside => ?_, returns⟩
      · refine lt_trans ?_ short.above
        have order : (2 : ℚ) ^ (-1074 - 2 : Int) < 2 ^ (-1074 - 1 : Int) :=
          zpow_lt_zpow_right₀ (by norm_num) (by norm_num)
        exact sub_lt_sub_left order _
      · have length := short.length
        exact least_normal_long digits (by omega) k' ((rounds _).mp inside)
    · have rounds : ∀ q, q ∈ Rounds binary64 x ↔
          ((2 ^ 52 : Nat) : ℚ) * 2 ^ ((e : Int) - 1075) - 2 ^ ((e : Int) - 1075 - 2) < q ∧
            q < (2 ^ 52 : Nat) * 2 ^ ((e : Int) - 1075) + 2 ^ ((e : Int) - 1075 - 1) := by
        intro q
        rw [isX]
        exact rounds_narrow (by omega)
      exact ⟨ds, k, short.digits, short.leading, short.length, (rounds _).mpr ⟨short.above, short.below⟩,
        fun ds' k' digits shorter inside => short.shortest ds' k' digits shorter ((rounds _).mp inside),
        returns⟩
  · have some : 0 < m.toNat := Nat.pos_of_ne_zero fun zero => power (UInt64.toNat_inj.mp zero)
    rw [if_neg power] at short
    have rounds : ∀ q, q ∈ Rounds binary64 x ↔
        ((2 ^ 52 + m.toNat : Nat) : ℚ) * 2 ^ ((e : Int) - 1075) - 2 ^ ((e : Int) - 1075 - 1) < q ∧
          q < (2 ^ 52 + m.toNat : Nat) * 2 ^ ((e : Int) - 1075) + 2 ^ ((e : Int) - 1075 - 1) := by
      intro q
      rw [isX]
      exact rounds_wide (by omega) (by omega) (by omega) (.inl (by omega))
    exact ⟨ds, k, short.digits, short.leading, short.length, (rounds _).mpr ⟨short.above, short.below⟩,
      fun ds' k' digits shorter inside => short.shortest ds' k' digits shorter ((rounds _).mp inside),
      returns⟩

/-- For every finite number that is not 0, `To_String` appends at most seventeen digits, the first of which is
not 0, and gives the exponent with which they denote a number that is strictly nearer to it than to every other
binary64 number. No decimal number with fewer digits is so. -/
theorem toString_shortest {v : UInt64} {x : ℚ} (finite : magnitude v = .finite x) (nonzero : x ≠ 0) :
    ∃ ds k, Converts v x ds k :=
  toString_converts finite nonzero

/-- The digits of 1. -/
theorem toString_shortest_one : ∃ ds k, Converts 0x3ff0000000000000 1 ds k := by
  refine toString_shortest ?_ one_ne_zero
  have exponent : exponentField 0x3ff0000000000000 = 1023 := by decide
  have fraction : fractionField 0x3ff0000000000000 = 0 := by decide
  rw [magnitude, exponent, fraction, if_neg (by decide), if_neg (by decide)]
  norm_num

/-- For every finite number, no bignum of the conversion needs more digits than its array has: `To_String`
returns, and none of the checks of the indexes that the operations write to fails. -/
theorem toString_fits {v : UInt64} (finite : exponentField v ≠ 2047) {fuel : Nat} (enough : 17 ≤ fuel)
    (last : Nat) : ∃ converted, toString fuel last v = .ok (some converted) := by
  obtain ⟨-, fraction, exponent⟩ := fields_eq v
  by_cases zero : v &&& 0xfffffffffffff = 0 ∧ exponentField v = 0
  · have empty : (context 0 0).f = ⟨[]⟩ := by decide
    unfold toString
    dsimp only
    rw [exponent, zero.2, zero.1, empty]
    exact ⟨_, rfl⟩
  obtain ⟨x, isX, nonzero⟩ : ∃ x, magnitude v = .finite x ∧ x ≠ 0 := by
    unfold magnitude
    rw [if_neg finite, ← fraction]
    split
    · next denormal =>
      refine ⟨_, rfl, mul_ne_zero (Nat.cast_ne_zero.mpr fun none => zero ⟨?_, denormal⟩) (by positivity)⟩
      exact UInt64.toNat_inj.mp none
    · exact ⟨_, rfl, by positivity⟩
  obtain ⟨ds, k, converts⟩ := toString_converts isX nonzero
  exact ⟨_, converts.returns fuel last enough⟩

/-- The largest number. -/
theorem toString_fits_largest : ∃ converted, toString 17 17 0x7fefffffffffffff = .ok (some converted) :=
  toString_fits (by decide) (le_refl 17) 17

end Ghdl.Fcvt
