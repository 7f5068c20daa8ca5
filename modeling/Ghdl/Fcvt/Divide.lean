import Ghdl.Fcvt.Dragon4
import Ghdl.Fcvt.ToFp

/-!
# Division to a floating point number

`Bignum_Mul2`, `Bignum_Shift32_Left` and `Bignum_Divide_To_Fp`. The divider is brought to one digit more than the
number; then each step of the division gives one bit of the quotient, the zeros in front of the first one are skipped,
and one more bit after the significand rounds it.
-/

namespace Ghdl.Fcvt

open Fallible Numbers

namespace Bignum

/-- The loop of `Bignum_Mul2`. -/
def mul2From : List UInt32 → UInt32 → List UInt32 × UInt32
  | [], carry => ([], carry)
  | v :: vs, carry => ((v <<< 1 ||| carry) :: (mul2From vs (v >>> 31)).1, (mul2From vs (v >>> 31)).2)

/-- `Bignum_Mul2`. -/
def mul2 (n : Bignum) : Except FcvtError Bignum :=
  let doubled := mul2From n.v 0
  if doubled.2 ≠ 0 then push ⟨doubled.1⟩ doubled.2 else .ok ⟨doubled.1⟩

/-- `Bignum_Shift32_Left`. -/
def shift32Left (n : Bignum) (count : Nat) : Except FcvtError Bignum :=
  if last < n.n + count then .error .indexCheck else .ok ⟨List.replicate count 0 ++ n.v⟩

/-- The start of `Bignum_Divide_To_Fp`: the exponents are adjusted so that the divider has one digit more than the
number. -/
def align (f div : Bignum) (precision : Nat) : Except FcvtError (Bignum × Bignum × Int) := do
  let ediff : Int := div.n - (f.n + 1)
  let e : Int := -precision + 1
  if 0 < ediff then
    -- Divider is larger
    let f ← f.shift32Left ediff.toNat
    .ok (f, div, e - 32 * ediff)
  else if ediff < 0 then
    let div ← div.shift32Left (-ediff).toNat
    .ok (f, div, e - 32 * ediff)
  else .ok (f, div, e)

/-- A step of the division: the bit, and the number for the next step. -/
def divideStep (div f : Bignum) : Except FcvtError (Bignum × Bool) := do
  let step := f.divstep div
  let f ← step.1.mul2
  .ok (f, step.2)

/-- The loop up to the first 1, with a bound for its steps. -/
def divideFirst (div : Bignum) : Nat → Bignum → Int → Except FcvtError (Option (Bignum × Int))
  | 0, _, _ => .ok none
  | fuel + 1, f, e => do
    let step ← divideStep div f
    if step.2 then .ok (some (step.1, e)) else divideFirst div fuel step.1 (e - 1)

/-- The loop for the bits of the significand. -/
def divideBits (div : Bignum) : Nat → Bignum → UInt64 → Except FcvtError (Bignum × UInt64)
  | 0, f, m => .ok (f, m)
  | steps + 1, f, m => do
    let step ← divideStep div f
    divideBits div steps step.1 (2 * m + if step.2 then 1 else 0)

/-- The end of `Bignum_Divide_To_Fp`: the next bit rounds the significand. -/
def divideRound (div f : Bignum) (precision : Nat) (m : UInt64) (e : Int) : UInt64 × Int :=
  if (f.divstep div).2 then
    if m + 1 = shl64 1 precision then ((m + 1) / 2, e + 1) else (m + 1, e)
  else (m, e)

/-- `Bignum_Divide_To_Fp`. -/
def divideToFp (fuel : Nat) (f div : Bignum) (precision : Nat) : Except FcvtError (Option (UInt64 × Int)) := do
  let (f, div, e) ← align f div precision
  if div.n ≤ f.n then .error .assertion
  else
    match ← divideFirst div fuel f e with
    | none => .ok none
    | some (f, e) =>
      let (f, m) ← divideBits div (precision - 1) f 1
      .ok (some (divideRound div f precision m e))

theorem double_digit (v carry : UInt32) (small : carry.toNat ≤ 1) :
    (v <<< 1 ||| carry).toNat + 2 ^ 32 * (v >>> 31).toNat = 2 * v.toNat + carry.toNat ∧ (v >>> 31).toNat ≤ 1 := by
  have bound := v.toNat_lt
  have high : (v >>> 31).toNat = v.toNat / 2 ^ 31 := shr32_toNat v 31
  have low : (v <<< 1).toNat = v.toNat * 2 % 2 ^ 32 := shl32_toNat v 1
  have shape : v.toNat * 2 % 2 ^ 32 = 2 ^ 1 * (v.toNat % 2 ^ 31) := by omega
  have sum : (v <<< 1 ||| carry).toNat = 2 ^ 1 * (v.toNat % 2 ^ 31) + carry.toNat := by
    rw [UInt32.toNat_or, low, shape, Nat.two_pow_add_eq_or_of_lt (show carry.toNat < 2 ^ 1 by omega)]
  rw [sum, high]
  omega

theorem mul2From_value (v : List UInt32) (carry : UInt32) (small : carry.toNat ≤ 1) :
    digitsValue (mul2From v carry).1 + (2 ^ 32) ^ v.length * (mul2From v carry).2.toNat =
        2 * digitsValue v + carry.toNat ∧ (mul2From v carry).1.length = v.length ∧ (mul2From v carry).2.toNat ≤ 1 := by
  induction v generalizing carry with
  | nil => exact ⟨by simp [mul2From], rfl, small⟩
  | cons d v ih =>
    obtain ⟨digit, next⟩ := double_digit d carry small
    obtain ⟨value, length, carry'⟩ := ih (d >>> 31) next
    refine ⟨?_, congrArg (· + 1) length, carry'⟩
    simp only [mul2From, digitsValue_cons, List.length_cons] at value ⊢
    rw [pow_succ' (2 ^ 32) v.length, Nat.mul_assoc]
    generalize (2 ^ 32) ^ v.length * _ = weighted at value ⊢
    omega

/-- `Bignum_Mul2` doubles a number. -/
theorem mul2_spec {n : Bignum} (valid : n.Valid) (fits : 2 * n.value < (2 ^ 32) ^ last) :
    ∃ res, n.mul2 = .ok res ∧ res.Valid ∧ res.value = 2 * n.value := by
  obtain ⟨value, length, -⟩ := mul2From_value n.v 0 (Nat.zero_le _)
  unfold mul2
  dsimp only
  by_cases carry : (mul2From n.v 0).2 = 0
  · rw [if_neg (not_not.mpr carry)]
    have total : digitsValue (mul2From n.v 0).1 = 2 * n.value := by
      rw [carry, UInt32.toNat_zero, Nat.mul_zero] at value
      exact value
    refine ⟨_, rfl, ?_, total⟩
    exact @valid_of_le n ⟨(mul2From n.v 0).1⟩ valid length (by
      show n.value ≤ digitsValue (mul2From n.v 0).1
      omega)
  rw [if_pos carry]
  have total : (⟨(mul2From n.v 0).1⟩ : Bignum).value +
      (2 ^ 32) ^ (⟨(mul2From n.v 0).1⟩ : Bignum).n * (mul2From n.v 0).2.toNat = 2 * n.value := by
    have same : (⟨(mul2From n.v 0).1⟩ : Bignum).n = n.v.length := length
    rw [same]
    exact value
  obtain ⟨res, pushed, resValid, resValue⟩ := push_spec carry (total ▸ fits)
  exact ⟨res, pushed, resValid, resValue.trans total⟩

theorem divideStep_spec {div g : Bignum} {n : Nat} (validD : div.Valid) (positive : 0 < div.value)
    (fits : 2 * div.value ≤ (2 ^ 32) ^ last) (valid : g.Valid) (value : g.value = n % (2 * div.value)) :
    (g.divstep div).1.value = n % div.value ∧ (g.divstep div).2 = decide (n / div.value % 2 = 1) ∧
      ∃ g', divideStep div g = .ok (g', decide (n / div.value % 2 = 1)) ∧ g'.Valid ∧
        g'.value = 2 * n % (2 * div.value) := by
  have small : g.value < 2 * div.value := value ▸ Nat.mod_lt n (by omega)
  obtain ⟨validR, less, split⟩ := FcvtContext.divide_step valid validD small
  have modular : g.value % div.value = n % div.value := by
    rw [value, Nat.mul_comm, Nat.mod_mul_right_mod]
  have quotient : g.value / div.value = n / div.value % 2 := by
    rw [value, Nat.mul_comm, Nat.mod_mul_right_div_self]
  have rest : (g.divstep div).1.value = n % div.value := by
    rw [← modular, split, Nat.mul_comm, Nat.mul_add_mod, Nat.mod_eq_of_lt less]
  have bit : (g.divstep div).2.toNat = n / div.value % 2 := by
    rw [← quotient, split, Nat.mul_comm, Nat.mul_add_div positive, Nat.div_eq_of_lt less, Nat.add_zero]
  have dig : (g.divstep div).2 = decide (n / div.value % 2 = 1) := by
    rw [← bit]
    cases (g.divstep div).2 <;> rfl
  obtain ⟨g', doubled, valid', value'⟩ := mul2_spec validR (by omega)
  refine ⟨rest, dig, g', ?_, valid', ?_⟩
  · unfold divideStep
    dsimp only
    rw [bind_ok]
    exact ⟨g', doubled, by rw [dig]⟩
  · rw [value', rest, Nat.mul_mod_mul_left]

/-- The number after a count of steps. -/
def dividend (div : Bignum) : Nat → Bignum → Except FcvtError Bignum
  | 0, f => .ok f
  | steps + 1, f => do
    let step ← divideStep div f
    dividend div steps step.1

theorem dividend_spec {div : Bignum} (validD : div.Valid) (positive : 0 < div.value)
    (fits : 2 * div.value ≤ (2 ^ 32) ^ last) (steps : Nat) {g : Bignum} {n : Nat} (valid : g.Valid)
    (value : g.value = n % (2 * div.value)) :
    ∃ g', dividend div steps g = .ok g' ∧ g'.Valid ∧ g'.value = 2 ^ steps * n % (2 * div.value) := by
  induction steps generalizing g n with
  | zero => exact ⟨g, rfl, valid, by rw [pow_zero, Nat.one_mul, value]⟩
  | succ steps ih =>
    obtain ⟨-, -, g', stepped, valid', value'⟩ := divideStep_spec validD positive fits valid value
    obtain ⟨final, run, validF, valueF⟩ := ih valid' value'
    refine ⟨final, ?_, validF, ?_⟩
    · unfold dividend
      rw [bind_ok]
      exact ⟨_, stepped, run⟩
    · rw [valueF, ← Nat.mul_assoc, ← pow_succ]

theorem divideFirst_spec {div : Bignum} (validD : div.Valid) (positive : 0 < div.value)
    (fits : 2 * div.value ≤ (2 ^ 32) ^ last) {fuel : Nat} {g : Bignum} {n : Nat} {e : Int} (valid : g.Valid)
    (value : g.value = n) (small : n < 2 * div.value) (enough : 2 * div.value ≤ 2 ^ fuel * n) :
    ∃ j g', divideFirst div fuel g e = .ok (some (g', e - (j : Nat))) ∧ g'.Valid ∧
      g'.value = 2 * (2 ^ j * n) % (2 * div.value) ∧ div.value ≤ 2 ^ j * n ∧ 2 ^ j * n < 2 * div.value := by
  induction fuel generalizing g n e with
  | zero => rw [pow_zero] at enough; omega
  | succ fuel ih =>
    have same : g.value = n % (2 * div.value) := by rw [Nat.mod_eq_of_lt small, value]
    obtain ⟨-, -, g', stepped, valid', value'⟩ := divideStep_spec validD positive fits valid same
    unfold divideFirst
    by_cases reached : div.value ≤ n
    · have one : n / div.value = 1 := Nat.div_eq_of_lt_le (by omega) (by omega)
      refine ⟨0, g', ?_, valid', ?_, ?_, ?_⟩
      · rw [bind_ok]
        refine ⟨_, stepped, ?_⟩
        rw [one, Nat.cast_zero, Int.sub_zero]
        rfl
      · rw [value', pow_zero, Nat.one_mul]
      all_goals rwa [pow_zero, Nat.one_mul]
    have zero : n / div.value = 0 := Nat.div_eq_of_lt (by omega)
    rw [Nat.mod_eq_of_lt (by omega)] at value'
    obtain ⟨j, final, run, validF, valueF, low, high⟩ := @ih g' (2 * n) (e - 1) valid' value' (by omega)
      (by rw [← Nat.mul_assoc, ← pow_succ]; exact enough)
    have shifted : 2 ^ (j + 1) * n = 2 ^ j * (2 * n) := by rw [pow_succ, Nat.mul_assoc]
    refine ⟨j + 1, final, ?_, validF, by rw [shifted, valueF], by rw [shifted]; exact low,
      by rw [shifted]; exact high⟩
    rw [bind_ok]
    refine ⟨_, stepped, ?_⟩
    rw [zero, show e - ((j + 1 : Nat) : Int) = e - 1 - (j : Nat) by omega]
    exact run

theorem divideBits_spec {div : Bignum} (validD : div.Valid) (positive : 0 < div.value)
    (fits : 2 * div.value ≤ (2 ^ 32) ^ last) (steps : Nat) {g : Bignum} {n : Nat} {m : UInt64} (valid : g.Valid)
    (value : g.value = 2 * n % (2 * div.value)) (quotient : m.toNat = n / div.value)
    (small : 2 ^ steps * n / div.value < 2 ^ 64) : ∃ g' m', divideBits div steps g m = .ok (g', m') ∧ g'.Valid ∧
      g'.value = 2 * (2 ^ steps * n) % (2 * div.value) ∧ m'.toNat = 2 ^ steps * n / div.value := by
  induction steps generalizing g n m with
  | zero => exact ⟨g, m, rfl, valid, by rw [value, pow_zero, Nat.one_mul], by rw [quotient, pow_zero, Nat.one_mul]⟩
  | succ steps ih =>
    have shifted : 2 ^ (steps + 1) * n = 2 ^ steps * (2 * n) := by rw [pow_succ, Nat.mul_assoc]
    rw [shifted] at small ⊢
    obtain ⟨-, -, g', stepped, valid', value'⟩ := divideStep_spec validD positive fits valid value
    have halved : 2 * n / div.value / 2 = n / div.value := by
      rw [Nat.div_div_eq_div_mul, Nat.mul_comm div.value 2, Nat.mul_div_mul_left _ _ (by decide)]
    have room : 2 * n / div.value < 2 ^ 64 := by
      refine lt_of_le_of_lt (Nat.div_le_div_right ?_) small
      exact Nat.le_mul_of_pos_left _ (Nat.two_pow_pos steps)
    have next : (2 * m + if decide (2 * n / div.value % 2 = 1) then 1 else 0).toNat = 2 * n / div.value := by
      have bit : (if decide (2 * n / div.value % 2 = 1) then (1 : UInt64) else 0).toNat = 2 * n / div.value % 2 := by
        by_cases odd : 2 * n / div.value % 2 = 1
        · rw [decide_eq_true odd, if_pos rfl, odd]
          rfl
        · rw [decide_eq_false odd, if_neg Bool.false_ne_true]
          show 0 = _
          omega
      have two : (2 : UInt64).toNat = 2 := rfl
      rw [UInt64.toNat_add, UInt64.toNat_mul, bit, quotient, ← halved, two]
      omega
    obtain ⟨final, m', run, validF, valueF, total⟩ := ih valid' value' next small
    refine ⟨final, m', ?_, validF, valueF, total⟩
    unfold divideBits
    rw [bind_ok]
    exact ⟨_, stepped, run⟩

/-- `Bignum_Shift32_Left` multiplies a number. -/
theorem shift32Left_spec {n : Bignum} (valid : n.Valid) (positive : 0 < n.value) {count : Nat}
    (fits : n.n + count ≤ last) : ∃ res, n.shift32Left count = .ok res ∧ res.Valid ∧ res.n = n.n + count ∧
      res.value = (2 ^ 32) ^ count * n.value := by
  have length : (⟨List.replicate count 0 ++ n.v⟩ : Bignum).n = n.n + count := by
    show (List.replicate count 0 ++ n.v).length = n.v.length + count
    rw [List.length_append, List.length_replicate, Nat.add_comm]
  refine ⟨⟨List.replicate count 0 ++ n.v⟩, ?_, ⟨length ▸ fits, ?_⟩, length, ?_⟩
  · unfold shift32Left
    rw [if_neg (Nat.not_lt.mpr fits)]
  · have digits : n.v ≠ [] := fun none => (value_pos valid.normal).mp positive (congrArg List.length none)
    show (List.replicate count 0 ++ n.v).getLast? ≠ some 0
    rw [List.getLast?_append_of_ne_nil _ digits]
    exact valid.normal
  · show digitsValue (List.replicate count 0 ++ n.v) = _
    rw [digitsValue_append, digitsValue_replicate, List.length_replicate, Nat.zero_add]
    rfl

theorem align_spec {f div : Bignum} (validF : f.Valid) (validD : div.Valid) (someF : 0 < f.value)
    (someD : 0 < div.value) (fits : 2 * ((2 ^ 32) ^ (f.n + 1 - div.n) * div.value) ≤ (2 ^ 32) ^ last) (p : Nat) :
    ∃ f' div', align f div p = .ok (f', div', 1 - p - 32 * (div.n - (f.n + 1) : Int)) ∧ f'.Valid ∧ div'.Valid ∧
      div'.n = f'.n + 1 ∧ f'.value = (2 ^ 32) ^ (div.n - (f.n + 1)) * f.value ∧
      div'.value = (2 ^ 32) ^ (f.n + 1 - div.n) * div.value := by
  have digitsD := (value_pos validD.normal).mp someD
  unfold align
  dsimp only
  rcases Nat.lt_trichotomy (f.n + 1) div.n with longer | same | shorter
  · have bounded := validD.bounded
    obtain ⟨f', shifted, valid, length, value⟩ := @shift32Left_spec f validF someF (div.n - (f.n + 1)) (by omega)
    refine ⟨f', div, ?_, valid, validD, by omega, value, ?_⟩
    · rw [if_pos (by omega), bind_ok]
      refine ⟨f', ?_, ?_⟩
      · rw [← shifted]
        congr 1
        omega
      · rw [show -(p : Int) + 1 = 1 - p by omega]
    · rw [show f.n + 1 - div.n = 0 by omega, pow_zero, Nat.one_mul]
  · refine ⟨f, div, ?_, validF, validD, same.symm, ?_, ?_⟩
    · rw [if_neg (by omega), if_neg (by omega), show -(p : Int) + 1 = 1 - p - 32 * (div.n - (f.n + 1) : Int) by omega]
    all_goals rw [same, Nat.sub_self, pow_zero, Nat.one_mul]
  · have room : div.n + (f.n + 1 - div.n) ≤ last := by
      have least := le_value validD.normal digitsD
      have below : (2 ^ 32) ^ (f.n + 1 - div.n + (div.n - 1)) < (2 ^ 32) ^ last := by
        rw [pow_add]
        have shifted := Nat.mul_le_mul_left ((2 ^ 32) ^ (f.n + 1 - div.n)) least
        have some' : 0 < (2 ^ 32) ^ (f.n + 1 - div.n) * div.value := Nat.mul_pos (Nat.pow_pos (by decide)) someD
        omega
      have fewer := (Nat.pow_lt_pow_iff_right (by decide)).mp below
      omega
    obtain ⟨div', shifted, valid, length, value⟩ := @shift32Left_spec div validD someD (f.n + 1 - div.n) room
    refine ⟨f, div', ?_, validF, valid, by omega, ?_, value⟩
    · rw [if_neg (by omega), if_pos (by omega), bind_ok]
      refine ⟨div', ?_, ?_⟩
      · rw [← shifted]
        congr 1
        omega
      · rw [show -(p : Int) + 1 = 1 - p by omega]
    · rw [show div.n - (f.n + 1) = 0 by omega, pow_zero, Nat.one_mul]

theorem nearestUp_div {n d p : Nat} (some' : 0 < p) (positive : 0 < d) (bits : HasBits p (n / d)) (e : Int) :
    NearestUp (floats p) ((n : ℚ) / d * 2 ^ e) (((n / d + (decide (2 * n / d % 2 = 1)).toNat : Nat) : ℚ) * 2 ^ e) := by
  have unit : (0 : ℚ) < 2 ^ e := by positivity
  have divider : (0 : ℚ) < d := by exact_mod_cast positive
  have adjacent := adjacent_floats some' bits e
  have parts : n = d * (n / d) + n % d := (Nat.div_add_mod n d).symm
  have rest : n % d < d := Nat.mod_lt n positive
  -- The number is the lower neighbour and a part of a unit.
  have split : (n : ℚ) / d * 2 ^ e = (n / d : Nat) * 2 ^ e + ((n % d : Nat) : ℚ) / d * 2 ^ e := by
    rw [← add_mul]
    congr 1
    field_simp
    exact_mod_cast parts
  have next : (((n / d + 1 : Nat) : ℚ) * 2 ^ e) = (n / d : Nat) * 2 ^ e + 2 ^ e := by
    push_cast
    ring
  have bit : 2 * n / d % 2 = 1 ↔ d ≤ 2 * (n % d) := by
    have doubled : 2 * n / d = 2 * (n / d) + 2 * (n % d) / d := by
      have sum : 2 * n = d * (2 * (n / d)) + 2 * (n % d) := by
        calc 2 * n = 2 * (d * (n / d) + n % d) := by rw [Nat.div_add_mod]
          _ = d * (2 * (n / d)) + 2 * (n % d) := by ring
      rw [sum, Nat.mul_add_div positive]
    have small : 2 * (n % d) / d < 2 := (Nat.div_lt_iff_lt_mul positive).mpr (by omega)
    have reached : 1 ≤ 2 * (n % d) / d ↔ d ≤ 2 * (n % d) := by
      rw [Nat.le_div_iff_mul_le positive, Nat.one_mul]
    rw [doubled]
    generalize 2 * (n % d) / d = q at small reached ⊢
    omega
  have part : ((n % d : Nat) : ℚ) / d ≤ 1 := by
    rw [div_le_one divider]
    exact_mod_cast rest.le
  have scaled : ((n % d : Nat) : ℚ) / d * 2 ^ e ≤ 2 ^ e := by
    have product := mul_le_mul_of_nonneg_right part unit.le
    linarith
  by_cases up : 2 * n / d % 2 = 1
  · rw [decide_eq_true up, Bool.toNat_true]
    have half : (1 : ℚ) ≤ 2 * (((n % d : Nat) : ℚ) / d) := by
      rw [← mul_div_assoc, le_div_iff₀ divider, one_mul]
      exact_mod_cast bit.mp up
    have product := mul_le_mul_of_nonneg_right half unit.le
    apply adjacent.up_up
    all_goals
      rw [split, next]
      linarith
  rw [decide_eq_false up, Bool.toNat_false, Nat.add_zero]
  have half : 2 * (((n % d : Nat) : ℚ) / d) < 1 := by
    rw [← mul_div_assoc, div_lt_iff₀ divider, one_mul]
    exact_mod_cast Nat.not_le.mp fun more => up (bit.mpr more)
  have product := mul_lt_mul_of_pos_right half unit
  have below : (0 : ℚ) ≤ ((n % d : Nat) : ℚ) / d * 2 ^ e := by positivity
  apply adjacent.down_up
  · rw [split]
    linarith
  · rw [split, next]
    linarith

theorem divideRound_eq {div f : Bignum} {p : Nat} (small : p < 64) {m : UInt64} (bits : HasBits p m.toNat)
    (e : Int) : divideRound div f p m e = addCarry p (f.divstep div).2 m e := by
  have high := bits.high
  have fits : 2 ^ p ≤ 2 ^ 63 := Nat.pow_le_pow_right (by decide) (by omega)
  have one : (shl64 1 p).toNat = 2 ^ p := by
    rw [shl64_toNat]
    exact (congrArg (· % 2 ^ 64) (Nat.one_mul _)).trans (Nat.mod_eq_of_lt (by omega))
  have next : (m + 1).toNat = m.toNat + 1 := by
    rw [UInt64.toNat_add]
    exact Nat.mod_eq_of_lt (by show m.toNat + 1 < 2 ^ 64; omega)
  have same : m + 1 = shl64 1 p ↔ shl64 1 p ≤ m + 1 := by
    rw [← UInt64.toNat_inj, UInt64.le_iff_toNat_le, one, next]
    omega
  have half : (m + 1) / 2 = shr64 (m + 1) 1 := by
    rw [← UInt64.toNat_inj, shr64_toNat, UInt64.toNat_div]
    rfl
  unfold divideRound addCarry
  rw [half]
  exact if_congr Iff.rfl (if_congr same rfl rfl) rfl

theorem quotient_eq {f div a b p j : Nat} (some' : 0 < p) (e : Int) (exponent : e = 1 - p - 32 * ((a : Int) - b) - j) :
    ((2 ^ (p - 1) * (2 ^ j * ((2 ^ 32) ^ a * f)) : Nat) : ℚ) / ((2 ^ 32) ^ b * div : Nat) * 2 ^ e = (f : ℚ) / div := by
  have down : e = ((32 * b : Nat) : Int) - ((p - 1 + (j + 32 * a) : Nat) : Int) := by omega
  rw [down, zpow_sub₀ (by norm_num), zpow_natCast, zpow_natCast, pow_add, pow_add]
  simp only [← pow_mul]
  push_cast
  field_simp

theorem aligned_le {f div : Bignum} (validF : f.Valid) (someF : 0 < f.value) (aligned : div.n = f.n + 1)
    {fuel : Nat} (enough : 65 ≤ fuel) : 2 * div.value ≤ 2 ^ fuel * f.value := by
  have digits := (value_pos validF.normal).mp someF
  have least := le_value validF.normal digits
  have below : div.value < (2 ^ 32) ^ (f.n + 1) := aligned ▸ digitsValue_lt div.v
  have shifted : (2 ^ 32) ^ (f.n + 1) = 2 ^ 64 * (2 ^ 32) ^ (f.n - 1) := by
    rw [show f.n + 1 = 2 + (f.n - 1) by omega, pow_add, ← pow_mul]
  calc 2 * div.value ≤ 2 * (2 ^ 64 * (2 ^ 32) ^ (f.n - 1)) := Nat.mul_le_mul_left 2 (shifted ▸ below.le)
    _ ≤ 2 * (2 ^ 64 * f.value) := Nat.mul_le_mul_left 2 (Nat.mul_le_mul_left _ least)
    _ = 2 ^ 65 * f.value := by ring
    _ ≤ 2 ^ fuel * f.value := Nat.mul_le_mul_right _ (Nat.pow_le_pow_right (by decide) enough)

theorem divideToFp_nearest {f div : Bignum} (validF : f.Valid) (validD : div.Valid) (someF : 0 < f.value)
    (someD : 0 < div.value) (fits : 2 * ((2 ^ 32) ^ (f.n + 1 - div.n) * div.value) ≤ (2 ^ 32) ^ last) {p : Nat}
    (some' : 0 < p) (small : p < 64) {fuel : Nat} (enough : 65 ≤ fuel) :
    (∃ m e, divideToFp fuel f div p = .ok (some (m, e)) ∧ HasBits p m.toNat ∧
      NearestUp (floats p) ((f.value : ℚ) / div.value) (m.toNat * 2 ^ e)) ∧
    ∃ f' div' e, align f div p = .ok (f', div', e) ∧
      ∀ steps, ∃ g, dividend div' steps f' = .ok g ∧ (g.divstep div').1.value < div'.value := by
  obtain ⟨f', div', aligned, validF', validD', length, valueF, valueD⟩ := align_spec validF validD someF someD fits p
  have someF' : 0 < f'.value := valueF ▸ Nat.mul_pos (Nat.pow_pos (by decide)) someF
  have someD' : 0 < div'.value := valueD ▸ Nat.mul_pos (Nat.pow_pos (by decide)) someD
  have fits' : 2 * div'.value ≤ (2 ^ 32) ^ last := valueD ▸ fits
  have less : f'.value < div'.value := value_lt_of_n_lt validD'.normal (by omega)
  have start : f'.value = f'.value % (2 * div'.value) := (Nat.mod_eq_of_lt (by omega)).symm
  refine ⟨?_, f', div', _, aligned, fun steps => ?_⟩
  · obtain ⟨j, g, skipped, validG, valueG, low, high⟩ := @divideFirst_spec div' validD' someD' fits' fuel f' f'.value
      (1 - p - 32 * (div.n - (f.n + 1) : Int)) validF' rfl (by omega) (aligned_le validF' someF' length enough)
    generalize number : 2 ^ j * f'.value = n at valueG low high
    have one : 1 = n / div'.value := (Nat.div_eq_of_lt_le (by omega) (by omega)).symm
    have bits : HasBits p (2 ^ (p - 1) * n / div'.value) := by
      have double : 2 ^ p = 2 ^ (p - 1) * 2 := by rw [← pow_succ, Nat.sub_add_cancel some']
      constructor
      · rw [Nat.le_div_iff_mul_le someD']
        exact Nat.mul_le_mul_left _ low
      · rw [Nat.div_lt_iff_lt_mul someD', double, Nat.mul_assoc]
        exact Nat.mul_lt_mul_of_pos_left high (Nat.two_pow_pos _)
    have word : 2 ^ p ≤ 2 ^ 64 := Nat.pow_le_pow_right (by decide) (by omega)
    obtain ⟨g', m, divided, validG', valueG', quotient⟩ :=
      @divideBits_spec div' validD' someD' fits' (p - 1) g n 1 validG valueG one (bits.high.trans_le word)
    obtain ⟨-, dig, -⟩ := divideStep_spec validD' someD' fits' validG' valueG'
    have bits' : HasBits p m.toNat := quotient ▸ bits
    generalize exponent : (1 - p - 32 * (div.n - (f.n + 1) : Int) - (j : Nat) : Int) = e at skipped
    obtain ⟨rounded, value⟩ := addCarry_spec some' small bits' (g'.divstep div').2 e
    rw [← divideRound_eq small bits'] at rounded value
    refine ⟨(divideRound div' g' p m e).1, (divideRound div' g' p m e).2, ?_, rounded, ?_⟩
    · unfold divideToFp
      rw [bind_ok]
      refine ⟨_, aligned, ?_⟩
      dsimp only
      rw [if_neg (by omega), bind_ok]
      refine ⟨_, skipped, ?_⟩
      dsimp only
      rw [bind_ok]
      exact ⟨_, divided, rfl⟩
    · have nearest := nearestUp_div some' someD' bits e
      have ratio := @quotient_eq f.value div.value (div.n - (f.n + 1)) (f.n + 1 - div.n) p j some' e (by omega)
      rw [← valueF, ← valueD, number] at ratio
      rw [value, dig, quotient, ← ratio]
      exact nearest
  · obtain ⟨g, run, validG, valueG⟩ := dividend_spec validD' someD' fits' steps validF' start
    refine ⟨g, run, ?_⟩
    rw [(divideStep_spec validD' someD' fits' validG valueG).1]
    exact Nat.mod_lt _ someD'

/-- `Bignum_Divide_To_Fp` returns the significand and the exponent of the number that is nearest to the quotient,
of the higher one for a tie, and each of its steps leaves less than the divider. -/
theorem divideToFp_rounds {f div : Bignum} (validF : f.Valid) (validD : div.Valid) (someF : 0 < f.value)
    (someD : 0 < div.value) (fits : 2 * ((2 ^ 32) ^ (f.n + 1 - div.n) * div.value) ≤ (2 ^ 32) ^ last) {p : Nat}
    (some' : 0 < p) (small : p < 64) {fuel : Nat} (enough : 65 ≤ fuel) :
    (∃ m e, divideToFp fuel f div p = .ok (some (m, e)) ∧ HasBits p m.toNat ∧
      NearestUp (floats p) ((f.value : ℚ) / div.value) (m.toNat * 2 ^ e)) ∧
    ∃ f' div' e, align f div p = .ok (f', div', e) ∧
      ∀ steps, ∃ g, dividend div' steps f' = .ok g ∧ (g.divstep div').1.value < div'.value :=
  divideToFp_nearest validF validD someF someD fits some' small enough

/-- A third of one. -/
theorem divideToFp_third : (∃ m e, divideToFp 65 (int 1) (int 3) 53 = .ok (some (m, e)) ∧ HasBits 53 m.toNat ∧
      NearestUp (floats 53) (((int 1).value : ℚ) / (int 3).value) (m.toNat * 2 ^ e)) ∧
    ∃ f' div' e, align (int 1) (int 3) 53 = .ok (f', div', e) ∧
      ∀ steps, ∃ g, dividend div' steps f' = .ok g ∧ (g.divstep div').1.value < div'.value :=
  divideToFp_rounds (int_spec (by decide)).1 (int_spec (by decide)).1 (by decide) (by decide) (by decide +kernel)
    (by decide) (by decide) (by decide)

end Bignum

end Ghdl.Fcvt
