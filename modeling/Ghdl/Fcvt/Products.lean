import Ghdl.Fcvt.Arithmetic

/-!
# Products, powers and steps of a division

`Bignum_Mul`, `Bignum_Mul_Int`, `Bignum_Pow2` and `Bignum_Pow` multiply, as long as the product fits in
the array. `Bignum_Divstep` subtracts the divider when it can, and otherwise restores the number.
-/

namespace Ghdl.Fcvt

open Fallible

namespace Bignum

theorem mul_digit {r l d tmp : Nat} (hr : r < 2 ^ 32) (hl : l < 2 ^ 32) (hd : d < 2 ^ 32)
    (ht : tmp < 2 ^ 32) : tmp + r * l + d < 2 ^ 64 := by
  have product : r * l ≤ (2 ^ 32 - 1) * (2 ^ 32 - 1) := Nat.mul_le_mul (by omega) (by omega)
  omega

theorem mulRow_value (r : UInt32) (l res : List UInt32) (tmp : UInt64) (room : l.length < res.length)
    (zeros : ∀ d ∈ res.drop l.length, d = 0) (carry : tmp.toNat < 2 ^ 32) :
    digitsValue (mulRow r l res tmp) = digitsValue res + r.toNat * digitsValue l + tmp.toNat ∧
      (mulRow r l res tmp).length = res.length ∧
      (mulRow r l res tmp).drop (l.length + 1) = res.drop (l.length + 1) := by
  induction l generalizing res tmp with
  | nil =>
    cases res with
    | nil => simp at room
    | cons d res =>
      have zero : d = 0 := zeros d (by simp)
      subst zero
      by_cases some : tmp = 0
      · subst some
        exact ⟨by simp [mulRow], rfl, rfl⟩
      have digit : tmp.toUInt32.toNat = tmp.toNat := by
        rw [UInt64.toNat_toUInt32, Nat.mod_eq_of_lt carry]
      refine ⟨?_, ?_, ?_⟩ <;> rw [mulRow, if_pos some]
      · simp [digit]
        omega
      · rfl
      · rfl
  | cons e l ih =>
    cases res with
    | nil => simp at room
    | cons d res =>
      have hr := r.toNat_lt
      have he := e.toNat_lt
      have hd := d.toNat_lt
      have fits := mul_digit hr he hd carry
      have sum : (tmp + r.toUInt64 * e.toUInt64 + d.toUInt64).toNat =
          tmp.toNat + r.toNat * e.toNat + d.toNat := by
        simp only [UInt64.toNat_add, UInt64.toNat_mul, UInt32.toNat_toUInt64]
        rw [Nat.mod_eq_of_lt (show r.toNat * e.toNat < 2 ^ 64 by omega),
          Nat.mod_eq_of_lt (show tmp.toNat + r.toNat * e.toNat < 2 ^ 64 by omega), Nat.mod_eq_of_lt fits]
      obtain ⟨value, length, back⟩ := ih res ((tmp + r.toUInt64 * e.toUInt64 + d.toUInt64) >>> 32)
        (Nat.lt_of_succ_lt_succ room) zeros (by rw [highDigit_toNat, sum]; omega)
      rw [highDigit_toNat, sum] at value
      refine ⟨?_, congrArg (· + 1) length, back⟩
      simp only [mulRow, digitsValue_cons, lowDigit_toNat, sum, value, Nat.mul_add]
      have assoc : r.toNat * (2 ^ 32 * digitsValue l) = 2 ^ 32 * (r.toNat * digitsValue l) := Nat.mul_left_comm _ _ _
      rw [assoc]
      omega

theorem mulRows_value (l r res : List UInt32) (room : res.length = l.length + r.length)
    (zeros : ∀ d ∈ res.drop l.length, d = 0) :
    digitsValue (mulRows l r res) = digitsValue res + digitsValue l * digitsValue r ∧
      (mulRows l r res).length = res.length := by
  induction r generalizing res with
  | nil => exact ⟨by simp [mulRows], rfl⟩
  | cons e r ih =>
    obtain ⟨value, length, back⟩ := mulRow_value e l res 0 (by simp at room; omega) zeros (by decide)
    unfold mulRows
    cases row : mulRow e l res 0 with
    | nil =>
      rw [row] at length
      simp at length room
      omega
    | cons d rest =>
      rw [row] at value length back
      have later : ∀ d ∈ rest.drop l.length, d = 0 := by
        intro x inside
        rw [List.drop_succ_cons] at back
        rw [back] at inside
        apply zeros
        rw [← List.drop_drop] at inside
        exact List.mem_of_mem_drop inside
      obtain ⟨product, lengths⟩ := ih rest (by simp at length room; omega) later
      refine ⟨?_, by simp only [List.length_cons] at length ⊢; omega⟩
      simp only [digitsValue_cons, UInt64.toNat_zero, Nat.add_zero] at value product ⊢
      rw [product, Nat.mul_add, Nat.mul_add]
      have assoc : digitsValue l * (2 ^ 32 * digitsValue r) = 2 ^ 32 * (digitsValue l * digitsValue r) :=
        Nat.mul_left_comm _ _ _
      have swap : digitsValue l * e.toNat = e.toNat * digitsValue l := Nat.mul_comm _ _
      rw [assoc, swap]
      omega

/-- `Bignum_Mul` multiplies. -/
theorem mul_spec {l r : Bignum} (fits : l.n + r.n ≤ last) :
    ∃ res, l.mul r = .ok res ∧ res.Valid ∧ res.value = l.value * r.value := by
  have zeros : ∀ d ∈ (List.replicate (l.n + r.n) (0 : UInt32)).drop l.v.length, d = 0 := fun d inside =>
    List.eq_of_mem_replicate (List.mem_of_mem_drop inside)
  obtain ⟨value, length⟩ := mulRows_value l.v r.v (List.replicate (l.n + r.n) 0)
    (by rw [List.length_replicate]; rfl) zeros
  rw [digitsValue_replicate, Nat.zero_add] at value
  have product := normalize_spec ⟨mulRows l.v r.v (List.replicate (l.n + r.n) 0)⟩
  refine ⟨_, if_neg (by omega), normalize_valid ?_, product.2.1.trans value⟩
  show List.length _ ≤ last
  rw [length, List.length_replicate]
  exact fits

theorem mulIntFrom_value (r : UInt64) (l : List UInt32) (tmp : UInt64) (small : r.toNat < 2 ^ 31)
    (carry : tmp.toNat < 2 ^ 31) :
    digitsValue (mulIntFrom r l tmp).1 + (2 ^ 32) ^ l.length * (mulIntFrom r l tmp).2.toNat =
        digitsValue l * r.toNat + tmp.toNat ∧
      (mulIntFrom r l tmp).1.length = l.length ∧ (mulIntFrom r l tmp).2.toNat < 2 ^ 31 := by
  induction l generalizing tmp with
  | nil => exact ⟨by simp [mulIntFrom], rfl, carry⟩
  | cons e l ih =>
    have he := e.toNat_lt
    have product : e.toNat * r.toNat ≤ (2 ^ 32 - 1) * (2 ^ 31 - 1) := Nat.mul_le_mul (by omega) (by omega)
    have sum : (tmp + e.toUInt64 * r).toNat = tmp.toNat + e.toNat * r.toNat := by
      simp only [UInt64.toNat_add, UInt64.toNat_mul, UInt32.toNat_toUInt64]
      rw [Nat.mod_eq_of_lt (show e.toNat * r.toNat < 2 ^ 64 by omega),
        Nat.mod_eq_of_lt (show tmp.toNat + e.toNat * r.toNat < 2 ^ 64 by omega)]
    obtain ⟨value, length, carry'⟩ := ih ((tmp + e.toUInt64 * r) >>> 32) (by rw [highDigit_toNat, sum]; omega)
    rw [highDigit_toNat, sum] at value
    refine ⟨?_, congrArg (· + 1) length, carry'⟩
    simp only [mulIntFrom, digitsValue_cons, lowDigit_toNat, sum, List.length_cons]
    rw [pow_succ' (2 ^ 32) l.length, Nat.mul_assoc, Nat.add_mul, Nat.mul_assoc (2 ^ 32) (digitsValue l)]
    generalize (2 ^ 32) ^ l.length * _ = weighted at value ⊢
    generalize e.toNat * r.toNat = low at value ⊢
    generalize digitsValue l * r.toNat = high at value ⊢
    omega

/-- `Bignum_Mul_Int` multiplies and adds. -/
theorem mulInt_spec {l : Bignum} (valid : l.Valid) {r carryIn : Nat} (positive : 0 < r)
    (small : r < 2 ^ 31) (carry : carryIn < 2 ^ 31) (fits : l.value * r + carryIn < (2 ^ 32) ^ last) :
    ∃ res, l.mulInt r carryIn = .ok res ∧ res.Valid ∧ res.value = l.value * r + carryIn := by
  have factor : r.toUInt64.toNat = r := by
    rw [Nat.toUInt64, UInt64.toNat_ofNat']
    omega
  have added : carryIn.toUInt64.toNat = carryIn := by
    rw [Nat.toUInt64, UInt64.toNat_ofNat']
    omega
  obtain ⟨value, length, carry'⟩ := mulIntFrom_value r.toUInt64 l.v carryIn.toUInt64
    (factor.symm ▸ small) (added.symm ▸ carry)
  rw [factor, added] at value
  obtain ⟨res, computed, resValid, resValue⟩ := @pushCarry_spec l
    ⟨(mulIntFrom r.toUInt64 l.v carryIn.toUInt64).1⟩ valid length _ (by omega) _ value
    ((Nat.le_mul_of_pos_right _ positive).trans (Nat.le_add_right _ _)) fits
  refine ⟨res, ?_, resValid, resValue⟩
  unfold mulInt
  rw [bind_ok]
  exact ⟨res, computed, if_pos (isValid_iff.mpr resValid)⟩

/-- `Bignum_Int` is the number. -/
theorem int_spec {n : Nat} (small : n < 2 ^ 32) : (int n).Valid ∧ (int n).value = n := by
  unfold int
  by_cases zero : n = 0
  · rw [if_pos zero, zero]
    exact ⟨⟨by decide, by simp⟩, rfl⟩
  rw [if_neg zero]
  have digit : n.toUInt32.toNat = n := by
    rw [Nat.toUInt32, UInt32.toNat_ofNat']
    omega
  refine ⟨⟨by simp [Bignum.n, last], fun highest => zero ?_⟩, ?_⟩
  · rw [List.getLast?_singleton, Option.some.injEq] at highest
    rw [← digit, highest]
    rfl
  · show digitsValue [n.toUInt32] = n
    simp [digit]

/-- `Bignum_Pow2` is a power of 2. -/
theorem pow2_spec {n : Nat} (fits : n < 32 * last) : ∃ res, pow2 n = .ok res ∧ res.Valid ∧ res.value = 2 ^ n := by
  have digit : ((1 : UInt32) <<< (n % 32).toUInt32).toNat = 2 ^ (n % 32) := by
    have small : n % 32 < 32 := Nat.mod_lt _ (by decide)
    have below : 2 ^ (n % 32) < 2 ^ 32 := Nat.pow_lt_pow_right (by decide) small
    rw [UInt32.toNat_shiftLeft, Nat.toUInt32, UInt32.toNat_ofNat']
    rw [Nat.mod_eq_of_lt (show n % 32 < 2 ^ 32 by omega), Nat.mod_eq_of_lt small, Nat.shiftLeft_eq]
    simp only [UInt32.toNat_one, Nat.one_mul]
    exact Nat.mod_eq_of_lt below
  have positive : (1 : UInt32) <<< (n % 32).toUInt32 ≠ 0 := fun zero => by
    rw [zero] at digit
    exact absurd digit.symm (Nat.pow_pos (by decide)).ne'
  unfold pow2
  rw [if_neg (by unfold last at fits ⊢; omega)]
  refine ⟨_, rfl, ⟨?_, ?_⟩, ?_⟩
  · show List.length _ ≤ last
    rw [List.length_append, List.length_replicate, List.length_singleton]
    unfold last at fits ⊢
    omega
  · rw [List.getLast?_append]
    simpa using positive
  · show digitsValue _ = 2 ^ n
    rw [digitsValue_append, digitsValue_replicate, List.length_replicate, digitsValue_cons, digit]
    rw [digitsValue_nil, Nat.zero_add, Nat.mul_zero, Nat.add_zero, ← pow_mul, ← pow_add, Nat.div_add_mod]

theorem n_add_le {l r : Bignum} (validL : l.Valid) (validR : r.Valid) (someL : 0 < l.value)
    (someR : 0 < r.value) {k : Nat} (below : l.value * r.value < (2 ^ 32) ^ k) : l.n + r.n ≤ k + 1 := by
  have countL := (value_pos validL.normal).mp someL
  have countR := (value_pos validR.normal).mp someR
  have large := Nat.mul_le_mul (le_value validL.normal countL) (le_value validR.normal countR)
  rw [← pow_add] at large
  have exponents : l.n - 1 + (r.n - 1) < k := by
    by_contra more
    have grows : (2 ^ 32) ^ k ≤ (2 ^ 32) ^ (l.n - 1 + (r.n - 1)) := Nat.pow_le_pow_right (by decide) (by omega)
    omega
  omega

theorem mul_returns {l r : Bignum} (validL : l.Valid) (validR : r.Valid) (someL : 0 < l.value)
    (someR : 0 < r.value) (fits : l.value * r.value < (2 ^ 32) ^ 36) :
    ∃ res, l.mul r = .ok res ∧ res.Valid ∧ res.value = l.value * r.value :=
  mul_spec (n_add_le validL validR someL someR fits)

/-- The loop of `Bignum_Pow` multiplies RES by a power of T. No product that it computes is larger than
the result. -/
theorem powFrom_spec (n1 : Nat) {res t : Bignum} (validR : res.Valid) (validT : t.Valid)
    (someR : 0 < res.value) (someT : 0 < t.value) (fits : res.value * t.value ^ n1 < (2 ^ 32) ^ 36) :
    ∃ final, powFrom n1 res t = .ok final ∧ final.Valid ∧ final.value = res.value * t.value ^ n1 := by
  induction n1 using Nat.strongRecOn generalizing res t with
  | ind n1 ih =>
    have odd : ∃ next, mulOdd n1 res t = .ok next ∧ next.Valid ∧
        next.value = res.value * t.value ^ (n1 % 2) := by
      unfold mulOdd
      rcases Nat.mod_two_eq_zero_or_one n1 with even | odd
      · rw [even, if_neg (by decide)]
        exact ⟨res, rfl, validR, by simp⟩
      · rw [odd, if_pos rfl, pow_one]
        refine mul_returns validR validT someR someT (lt_of_le_of_lt ?_ fits)
        exact Nat.mul_le_mul_left _ (Nat.le_self_pow (by omega) _)
    obtain ⟨next, multiplied, validN, valueN⟩ := odd
    have split : t.value ^ n1 = t.value ^ (n1 % 2) * (t.value * t.value) ^ (n1 / 2) := by
      rw [← pow_two, ← pow_mul, ← pow_add, Nat.mod_add_div]
    unfold powFrom
    rw [multiplied]
    by_cases done : n1 / 2 = 0
    · refine ⟨next, if_pos done, validN, ?_⟩
      rw [valueN, split, done, pow_zero, Nat.mul_one]
    have square : t.value * t.value ≤ res.value * t.value ^ n1 := by
      calc t.value * t.value = t.value ^ 2 := (pow_two _).symm
        _ ≤ t.value ^ n1 := Nat.pow_le_pow_right someT (by omega)
        _ ≤ res.value * t.value ^ n1 := Nat.le_mul_of_pos_left _ someR
    obtain ⟨t', squared, validT', valueT'⟩ := mul_returns validT validT someT someT (lt_of_le_of_lt square fits)
    have total : next.value * t'.value ^ (n1 / 2) = res.value * t.value ^ n1 := by
      rw [valueN, valueT', split, Nat.mul_assoc]
    have someN : 0 < next.value := valueN ▸ Nat.mul_pos someR (Nat.pow_pos someT)
    obtain ⟨final, returned, validF, valueF⟩ := ih (n1 / 2) (by omega) validN validT' someN
      (valueT' ▸ Nat.mul_pos someT someT) (total ▸ fits)
    refine ⟨final, ?_, validF, valueF.trans total⟩
    show (if n1 / 2 = 0 then _ else _) = _
    rw [if_neg done, squared]
    exact returned

/-- `Bignum_Pow` is a power. -/
theorem pow_spec {l n : Nat} (positive : 0 < l) (small : l < 2 ^ 32) (fits : l ^ n < (2 ^ 32) ^ 36) :
    ∃ res, pow l n = .ok res ∧ res.Valid ∧ res.value = l ^ n := by
  obtain ⟨validOne, one⟩ := int_spec (n := 1) (by decide)
  obtain ⟨validL, value⟩ := int_spec small
  have total : (int 1).value * (int l).value ^ n = l ^ n := by rw [one, value, Nat.one_mul]
  obtain ⟨res, returned, valid, result⟩ := powFrom_spec n validOne validL (by rw [one]; decide)
    (by rw [value]; exact positive) (total ▸ fits)
  exact ⟨res, returned, valid, result.trans total⟩

theorem subFrom_value (n div : List UInt32) (borrow : Bool) (shorter : div.length ≤ n.length)
    (longer : n.length ≤ div.length + 1) : ∃ next : Bool, (subFrom n div (borrowWord borrow)).2 = borrowWord next ∧
      (subFrom n div (borrowWord borrow)).1.length = n.length ∧
      digitsValue (subFrom n div (borrowWord borrow)).1 + digitsValue div + borrow.toNat =
        digitsValue n + (2 ^ 32) ^ n.length * next.toNat ∧
      restoreFrom (subFrom n div (borrowWord borrow)).1 div (UInt64.ofNat borrow.toNat) = n := by
  induction n generalizing div borrow with
  | nil =>
    obtain rfl : div = [] := List.eq_nil_of_length_eq_zero (Nat.le_zero.mp shorter)
    exact ⟨borrow, rfl, rfl, by simp [subFrom], rfl⟩
  | cons d n ih =>
    cases div with
    | nil =>
      obtain rfl : n = [] := List.eq_nil_of_length_eq_zero (Nat.le_zero.mp (Nat.le_of_succ_le_succ longer))
      obtain ⟨digit, carried⟩ := sub_digit d 0 borrow
      have same : borrowWord borrow + d.toUInt64 = borrowWord borrow + (d.toUInt64 - (0 : UInt32).toUInt64) := by
        rw [show (0 : UInt32).toUInt64 = 0 from rfl, UInt64.sub_zero]
      obtain ⟨restored, -⟩ := restore_digit digit
      refine ⟨decide (d.toNat < (0 : UInt32).toNat + borrow.toNat), ?_, rfl, ?_, ?_⟩
      · show shiftBorrow (borrowWord borrow + d.toUInt64) = _
        rw [same]
        exact carried
      · show digitsValue [lowDigit (borrowWord borrow + d.toUInt64)] + 0 + borrow.toNat = _
        rw [same, digitsValue_cons, digitsValue_cons, digitsValue_nil, List.length_singleton, pow_one]
        simpa using digit
      · show [lowDigit (UInt64.ofNat borrow.toNat + (lowDigit (borrowWord borrow + d.toUInt64)).toUInt64)] = [d]
        rw [same]
        have plain := restored
        rw [show (0 : UInt32).toUInt64 = 0 from rfl, UInt64.add_zero] at plain
        exact congrArg (fun x => [x]) plain
    | cons e div =>
      obtain ⟨digit, carried⟩ := sub_digit d e borrow
      obtain ⟨restored, restoredCarry⟩ := restore_digit digit
      obtain ⟨next, isNext, length, value, back⟩ := ih div (decide (d.toNat < e.toNat + borrow.toNat))
        (Nat.le_of_succ_le_succ shorter) (Nat.le_of_succ_le_succ longer)
      rw [← carried] at isNext length value back
      refine ⟨next, isNext, congrArg (· + 1) length, ?_, ?_⟩
      · simp only [subFrom, digitsValue_cons, List.length_cons]
        rw [pow_succ' (2 ^ 32) n.length, Nat.mul_assoc]
        generalize (2 ^ 32) ^ n.length * next.toNat = weighted at value ⊢
        omega
      · simp only [subFrom, restoreFrom, restored, restoredCarry]
        exact congrArg (d :: ·) back

/-- `Bignum_Divstep` subtracts the divider if it is not more than the number, for a number of at most one
digit more. -/
theorem divstep_spec {n div : Bignum} (validN : n.Valid) (validD : div.Valid) (longer : n.n ≤ div.n + 1) :
    (n.divstep div).1.Valid ∧ (n.divstep div).2 = decide (div.value ≤ n.value) ∧
      (n.divstep div).1.value = if div.value ≤ n.value then n.value - div.value else n.value := by
  unfold divstep
  by_cases shorter : n.n < div.n
  · have less := value_lt_of_n_lt validD.normal shorter
    rw [if_pos shorter, if_neg (by omega), decide_eq_false (by omega)]
    exact ⟨validN, rfl, rfl⟩
  rw [if_neg shorter]
  obtain ⟨next, isNext, length, value, back⟩ := subFrom_value n.v div.v false (by unfold Bignum.n at shorter; omega) longer
  have below := digitsValue_lt (subFrom n.v div.v 0).1
  have zero : borrowWord false = 0 := rfl
  rw [zero] at isNext length value back
  rw [length] at below
  dsimp only
  rw [isNext]
  cases next with
  | false =>
    have difference : digitsValue (subFrom n.v div.v 0).1 + div.value = n.value := by
      simpa [Bignum.value] using value
    rw [if_pos zero, if_pos (by omega), decide_eq_true (by omega)]
    refine ⟨normalize_valid (length.le.trans validN.bounded), rfl, ?_⟩
    rw [(normalize_spec _).2.1]
    show digitsValue (subFrom n.v div.v 0).1 = _
    omega
  | true =>
    have difference : digitsValue (subFrom n.v div.v 0).1 + div.value = n.value + (2 ^ 32) ^ n.v.length := by
      simpa [Bignum.value] using value
    have less : n.value < div.value := by omega
    rw [if_neg (by decide), if_neg (by omega), decide_eq_false (by omega)]
    have restored : restoreFrom (subFrom n.v div.v 0).1 div.v 0 = n.v := back
    rw [restored]
    exact ⟨validN, rfl, rfl⟩

/-- The call returns a valid number, which denotes this one. -/
def Computes (call : Except FcvtError Bignum) (value : Nat) : Prop := ∃ res, call = .ok res ∧ res.Valid ∧ res.value = value

theorem mul_iff {l r : Bignum} : Computes (l.mul r) (l.value * r.value) ↔ l.n + r.n ≤ last := by
  refine ⟨fun ⟨res, returned, _⟩ => ?_, mul_spec⟩
  unfold mul at returned
  split at returned
  · cases returned
  · omega

theorem mul_exact {l r res : Bignum} (returned : l.mul r = .ok res) : res.Valid ∧ res.value = l.value * r.value := by
  by_cases fits : l.n + r.n ≤ last
  · obtain ⟨res', returned', exact⟩ := mul_spec fits
    rwa [Except.ok.inj (returned.symm.trans returned')]
  · rw [mul, if_pos (by omega)] at returned
    cases returned

theorem powFrom_exact (n1 : Nat) {res t final : Bignum} (validR : res.Valid) (validT : t.Valid)
    (returned : powFrom n1 res t = .ok final) : final.Valid ∧ final.value = res.value * t.value ^ n1 := by
  induction n1 using Nat.strongRecOn generalizing res t with
  | ind n1 ih =>
    unfold powFrom at returned
    obtain ⟨next, multiplied, returned⟩ := bind_ok.mp returned
    have odd : next.Valid ∧ next.value = res.value * t.value ^ (n1 % 2) := by
      unfold mulOdd at multiplied
      split at multiplied
      · next odd =>
        rw [odd, pow_one]
        exact mul_exact multiplied
      · next even =>
        rw [← Except.ok.inj multiplied, show n1 % 2 = 0 by omega, pow_zero, Nat.mul_one]
        exact ⟨validR, rfl⟩
    have split : res.value * t.value ^ n1 = next.value * (t.value * t.value) ^ (n1 / 2) := by
      rw [odd.2, Nat.mul_assoc, ← pow_two, ← pow_mul, ← pow_add, Nat.mod_add_div]
    split at returned
    · next done =>
      rw [← Except.ok.inj returned, split, done, pow_zero, Nat.mul_one]
      exact ⟨odd.1, rfl⟩
    · obtain ⟨t', squared, returned⟩ := bind_ok.mp returned
      obtain ⟨validT', square⟩ := mul_exact squared
      rw [split, ← square]
      exact ih (n1 / 2) (by omega) odd.1 validT' returned

theorem powFrom_zero (n1 : Nat) {res t : Bignum} (small : res.n ≤ 1) (zero : t.n = 0) :
    ∃ final, powFrom n1 res t = .ok final := by
  induction n1 using Nat.strongRecOn generalizing res t with
  | ind n1 ih =>
    have product : ∀ l : Bignum, l.n ≤ 1 → ∃ res, mul l t = .ok res ∧ res.n = 0 := by
      intro l short
      obtain ⟨res, returned, valid, value⟩ := @mul_spec l t (by unfold last; omega)
      have none : t.value = 0 := congrArg digitsValue (List.eq_nil_of_length_eq_zero zero)
      have empty := value_pos valid.normal
      rw [value, none] at empty
      exact ⟨res, returned, by simpa using empty⟩
    obtain ⟨next, multiplied, short⟩ : ∃ next, mulOdd n1 res t = .ok next ∧ next.n ≤ 1 := by
      unfold mulOdd
      split
      · obtain ⟨next, multiplied, none⟩ := product res small
        exact ⟨next, multiplied, by omega⟩
      · exact ⟨res, rfl, small⟩
    unfold powFrom
    rw [multiplied]
    by_cases done : n1 / 2 = 0
    · exact ⟨next, if_pos done⟩
    obtain ⟨t', squared, zero'⟩ := product t (by omega)
    obtain ⟨final, returned⟩ := ih (n1 / 2) (by omega) short zero'
    refine ⟨final, ?_⟩
    show (if n1 / 2 = 0 then _ else _) = _
    rw [if_neg done, squared]
    exact returned

theorem pow_exact {base n : Nat} (small : base < 2 ^ 32) {res : Bignum} (returned : pow base n = .ok res) :
    res.Valid ∧ res.value = base ^ n := by
  obtain ⟨validOne, one⟩ := int_spec (n := 1) (by decide)
  obtain ⟨validBase, value⟩ := int_spec small
  have exact := powFrom_exact n validOne validBase returned
  rwa [one, value, Nat.one_mul] at exact

theorem pow_returns {base n : Nat} (small : base < 2 ^ 32) (fits : base ^ n < (2 ^ 32) ^ 36) :
    Computes (pow base n) (base ^ n) := by
  obtain rfl | positive := Nat.eq_zero_or_pos base
  · obtain ⟨res, returned⟩ := @powFrom_zero n (int 1) (int 0) (le_refl 1) rfl
    exact ⟨res, returned, pow_exact small returned⟩
  · exact pow_spec positive small fits

theorem divstep_digit {n div : Bignum} (validN : n.Valid) (validD : div.Valid) (digit : n.value < 2 * div.value) :
    (n.divstep div).1.Valid ∧ (n.divstep div).2.toNat = n.value / div.value ∧
      (n.divstep div).1.value = n.value % div.value := by
  have longer : n.n ≤ div.n + 1 := by
    have below := digitsValue_lt div.v
    refine n_le validN.normal ?_
    rw [pow_succ]
    show _ < (2 ^ 32) ^ div.v.length * 2 ^ 32
    unfold value at digit ⊢
    omega
  obtain ⟨valid, bit, rest⟩ := divstep_spec validN validD longer
  refine ⟨valid, ?_⟩
  rw [bit, rest]
  split
  · next more =>
    rw [decide_eq_true more, Nat.mod_eq_sub_mod more, Nat.mod_eq_of_lt (by omega)]
    exact ⟨(Nat.div_eq_of_lt_le (by simpa using more) (by simpa using digit)).symm, rfl⟩
  · next less =>
    rw [decide_eq_false less, Nat.div_eq_of_lt (by omega), Nat.mod_eq_of_lt (by omega)]
    exact ⟨rfl, rfl⟩

/-- The operations on valid numbers give the order, the sum, the product, the product with a small factor, the power,
and the digit and the remainder of a quotient that is 0 or 1. What they return is valid. `Bignum_Mul` needs room for
the digits of both factors, and so does each product of `Bignum_Pow`. -/
theorem operations_exact {l r : Bignum} (validL : l.Valid) (validR : r.Valid) :
    l.compare r = Ord.compare l.value r.value ∧
      (l.value + r.value < (2 ^ 32) ^ last → Computes (l.add r) (l.value + r.value)) ∧
      (Computes (l.mul r) (l.value * r.value) ↔ l.n + r.n ≤ last) ∧
      (∀ factor carryIn, 0 < factor → factor < 2 ^ 31 → carryIn < 2 ^ 31 →
        l.value * factor + carryIn < (2 ^ 32) ^ last → Computes (l.mulInt factor carryIn) (l.value * factor + carryIn)) ∧
      (∀ base n, base < 2 ^ 31 → (∀ res, pow base n = .ok res → res.Valid ∧ res.value = base ^ n) ∧
        (base ^ n < (2 ^ 32) ^ 36 → Computes (pow base n) (base ^ n))) ∧
      (l.value < 2 * r.value → (l.divstep r).1.Valid ∧ (l.divstep r).2.toNat = l.value / r.value ∧
        (l.divstep r).1.value = l.value % r.value) := by
  refine ⟨compare_eq validL validR, add_spec validL validR, mul_iff, ?_, ?_, divstep_digit validL validR⟩
  · intro factor carryIn positive small carry fits
    exact mulInt_spec validL positive small carry fits
  · intro base n small
    have small : base < 2 ^ 32 := by omega
    exact ⟨fun res => pow_exact small, pow_returns small⟩

/-- The product of 10 and 3. -/
theorem operations_exact_ten : Computes ((int 10).mul (int 3)) ((int 10).value * (int 3).value) :=
  (operations_exact (isValid_iff.mp (by decide)) (isValid_iff.mp (by decide))).2.2.1.mpr (by decide)

/-- A product that fits has no room, and a quotient is not a digit. -/
theorem operations_inexact : (∃ l r : Bignum, l.Valid ∧ r.Valid ∧ l.value * r.value < (2 ^ 32) ^ last ∧
    ¬Computes (l.mul r) (l.value * r.value)) ∧ ∃ n div : Bignum, n.Valid ∧ div.Valid ∧ 0 < div.value ∧
      (n.divstep div).2.toNat * div.value + (n.divstep div).1.value ≠ n.value := by
  constructor
  · refine ⟨⟨List.replicate 36 0 ++ [1]⟩, ⟨[1]⟩, isValid_iff.mp (by decide), isValid_iff.mp (by decide), ?_, ?_⟩
    · decide +kernel
    · rw [mul_iff]
      decide
  · refine ⟨⟨[0, 0, 1]⟩, ⟨[1]⟩, isValid_iff.mp (by decide), isValid_iff.mp (by decide), ?_⟩
    decide +kernel

end Bignum

end Ghdl.Fcvt
