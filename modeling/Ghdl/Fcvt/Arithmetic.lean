import Ghdl.Fcvt.Bignum

/-!
# What the operations on digits compute

`Bignum.value` is the number that the digits denote. Each operation of `Grt.Fcvt` is described by what it
does to that number; a number below `2 ^ (32 * k)` that is valid has at most K digits, so that the bounds
of the arrays are bounds of numbers.
-/

namespace Ghdl.Fcvt

theorem lowDigit_toNat (tmp : UInt64) : (lowDigit tmp).toNat = tmp.toNat % 2 ^ 32 := by
  have mask : (tmp &&& 0xffffffff).toNat = tmp.toNat % 2 ^ 32 := by
    rw [UInt64.toNat_and]
    exact Nat.and_two_pow_sub_one_eq_mod _ 32
  rw [lowDigit, UInt64.toNat_toUInt32, mask, Nat.mod_mod]

theorem highDigit_toNat (tmp : UInt64) : (tmp >>> 32).toNat = tmp.toNat / 2 ^ 32 := by
  rw [UInt64.toNat_shiftRight, Nat.shiftRight_eq_div_pow]
  rfl

/-- The borrow of a subtraction as the 64-bit number that is carried on. -/
def borrowWord (borrow : Bool) : UInt64 := if borrow then 0xffffffffffffffff else 0

theorem shiftBorrow_small {tmp : UInt64} (small : tmp.toNat < 2 ^ 63) :
    (shiftBorrow tmp).toNat = tmp.toNat / 2 ^ 32 := by
  have msb : tmp.toBitVec.msb = false := by
    rw [BitVec.msb_eq_decide]
    simpa using small
  show (tmp.toBitVec.sshiftRight 32).toNat = _
  rw [BitVec.toNat_sshiftRight_of_msb_false msb, Nat.shiftRight_eq_div_pow]
  rfl

theorem shiftBorrow_negative {tmp : UInt64} (negative : 2 ^ 64 - 2 ^ 32 ≤ tmp.toNat) :
    shiftBorrow tmp = borrowWord true := by
  have below := tmp.toNat_lt
  have msb : tmp.toBitVec.msb = true := by
    rw [BitVec.msb_eq_decide]
    have large : 2 ^ 63 ≤ tmp.toBitVec.toNat := by
      show 2 ^ 63 ≤ tmp.toNat
      omega
    simpa using large
  apply UInt64.toNat_inj.mp
  show (tmp.toBitVec.sshiftRight 32).toNat = 2 ^ 64 - 1
  rw [BitVec.toNat_sshiftRight_of_msb_true msb, Nat.shiftRight_eq_div_pow]
  show 2 ^ 64 - 1 - (2 ^ 64 - 1 - tmp.toNat) / 2 ^ 32 = 2 ^ 64 - 1
  omega

theorem sub_digit (d e : UInt32) (borrow : Bool) : let tmp := borrowWord borrow + (d.toUInt64 - e.toUInt64)
    let next := decide (d.toNat < e.toNat + borrow.toNat)
    (lowDigit tmp).toNat + e.toNat + borrow.toNat = d.toNat + 2 ^ 32 * next.toNat ∧
      shiftBorrow tmp = borrowWord next := by
  have hd := d.toNat_lt
  have he := e.toNat_lt
  intro tmp next
  have value : tmp.toNat =
      ((if borrow then 2 ^ 64 - 1 else 0) + (2 ^ 64 - e.toNat + d.toNat) % 2 ^ 64) % 2 ^ 64 := by
    show (borrowWord borrow + (d.toUInt64 - e.toUInt64)).toNat = _
    rw [UInt64.toNat_add, UInt64.toNat_sub, UInt32.toNat_toUInt64, UInt32.toNat_toUInt64]
    cases borrow <;> rfl
  have low := lowDigit_toNat tmp
  have isNext : next = decide (d.toNat < e.toNat + borrow.toNat) := rfl
  by_cases less : d.toNat < e.toNat + borrow.toNat
  · rw [decide_eq_true less] at isNext
    rw [isNext]
    have wrapped : tmp.toNat = 2 ^ 64 + d.toNat - e.toNat - borrow.toNat := by
      rw [value]
      cases borrow <;> simp only [Bool.toNat_false, Bool.toNat_true, if_true, if_false,
        Bool.false_eq_true] at less ⊢ <;> omega
    refine ⟨?_, shiftBorrow_negative (by cases borrow <;> simp at less wrapped ⊢ <;> omega)⟩
    rw [low, wrapped]
    cases borrow <;> simp at less ⊢ <;> omega
  rw [decide_eq_false less] at isNext
  rw [isNext]
  have exact' : tmp.toNat = d.toNat - e.toNat - borrow.toNat := by
    rw [value]
    cases borrow <;> simp only [Bool.toNat_false, Bool.toNat_true, if_true, if_false,
      Bool.false_eq_true] at less ⊢ <;> omega
  constructor
  · rw [low, exact']
    cases borrow <;> simp at less ⊢ <;> omega
  · apply UInt64.toNat_inj.mp
    rw [shiftBorrow_small (by omega), exact']
    show _ = 0
    omega

theorem restore_digit {x : UInt32} {d e : UInt32} {borrow next : Bool}
    (difference : x.toNat + e.toNat + borrow.toNat = d.toNat + 2 ^ 32 * next.toNat) :
    let tmp := (UInt64.ofNat borrow.toNat) + (x.toUInt64 + e.toUInt64)
    lowDigit tmp = d ∧ shiftBorrow tmp = UInt64.ofNat next.toNat := by
  have hx := x.toNat_lt
  have hd := d.toNat_lt
  have he := e.toNat_lt
  intro tmp
  have value : tmp.toNat = d.toNat + 2 ^ 32 * next.toNat := by
    show (UInt64.ofNat borrow.toNat + (x.toUInt64 + e.toUInt64)).toNat = _
    rw [UInt64.toNat_add, UInt64.toNat_add, UInt32.toNat_toUInt64, UInt32.toNat_toUInt64]
    have bit : (UInt64.ofNat borrow.toNat).toNat = borrow.toNat := by cases borrow <;> rfl
    rw [bit]
    cases borrow <;> cases next <;> simp at difference ⊢ <;> omega
  constructor
  · apply UInt32.toNat_inj.mp
    rw [lowDigit_toNat, value, Nat.add_mul_mod_self_left, Nat.mod_eq_of_lt hd]
  · apply UInt64.toNat_inj.mp
    rw [shiftBorrow_small (by cases next <;> simp at value ⊢ <;> omega), value]
    cases next <;> simp <;> omega

/-- The number that digits denote. -/
def digitsValue (v : List UInt32) : Nat := Nat.ofDigits (2 ^ 32) (v.map UInt32.toNat)

@[simp] theorem digitsValue_nil : digitsValue [] = 0 := rfl

@[simp] theorem digitsValue_cons (d : UInt32) (v : List UInt32) :
    digitsValue (d :: v) = d.toNat + 2 ^ 32 * digitsValue v := Nat.ofDigits_cons

theorem digitsValue_append (v w : List UInt32) :
    digitsValue (v ++ w) = digitsValue v + (2 ^ 32) ^ v.length * digitsValue w := by
  unfold digitsValue
  rw [List.map_append, Nat.ofDigits_append, List.length_map]

theorem digitsValue_lt (v : List UInt32) : digitsValue v < (2 ^ 32) ^ v.length := by
  have below := @Nat.ofDigits_lt_base_pow_length (2 ^ 32) (v.map UInt32.toNat) (by decide)
    fun d inside => by
      obtain ⟨w, -, rfl⟩ := List.mem_map.mp inside
      exact w.toNat_lt
  rwa [List.length_map] at below

theorem digitsValue_replicate (k : Nat) : digitsValue (List.replicate k 0) = 0 := by
  unfold digitsValue
  rw [List.map_replicate]
  exact Nat.ofDigits_replicate_zero

namespace Bignum

/-- The number that the digits denote. -/
def value (bn : Bignum) : Nat := digitsValue bn.v

/-- The invariant within a number. -/
structure Valid (bn : Bignum) : Prop where
  /-- The digits fit in the array. -/
  bounded : bn.n ≤ last
  /-- The highest digit is not 0. -/
  normal : bn.v.getLast? ≠ some 0

variable {bn : Bignum}

theorem isValid_iff : bn.isValid = true ↔ bn.Valid := by
  rw [isValid, Bool.and_eq_true, decide_eq_true_eq, decide_eq_true_eq]
  exact ⟨fun ⟨bounded, normal⟩ => ⟨bounded, normal⟩, fun valid => ⟨valid.bounded, valid.normal⟩⟩

theorem le_value (normal : bn.v.getLast? ≠ some 0) (some : bn.n ≠ 0) : (2 ^ 32) ^ (bn.n - 1) ≤ bn.value := by
  have nonempty : bn.v ≠ [] := fun empty => some (by rw [n, empty]; rfl)
  have split := List.dropLast_append_getLast nonempty
  have highest : bn.v.getLast nonempty ≠ 0 := fun zero =>
    normal (by rw [List.getLast?_eq_some_getLast nonempty, zero])
  have positive : 0 < (bn.v.getLast nonempty).toNat :=
    Nat.pos_of_ne_zero fun zero => highest (UInt32.toNat_inj.mp zero)
  calc (2 ^ 32) ^ (bn.n - 1) ≤ (2 ^ 32) ^ (bn.n - 1) * (bn.v.getLast nonempty).toNat :=
        Nat.le_mul_of_pos_right _ positive
    _ ≤ digitsValue (bn.v.dropLast ++ [bn.v.getLast nonempty]) := by
        rw [digitsValue_append, List.length_dropLast, digitsValue_cons, digitsValue_nil, Nat.mul_zero, Nat.add_zero]
        exact Nat.le_add_left _ _
    _ = bn.value := by rw [split]; rfl

theorem n_le (normal : bn.v.getLast? ≠ some 0) {k : Nat} (below : bn.value < (2 ^ 32) ^ k) : bn.n ≤ k := by
  by_contra more
  have large := le_value normal (by omega)
  have grows : (2 ^ 32) ^ k ≤ (2 ^ 32) ^ (bn.n - 1) := Nat.pow_le_pow_right (by decide) (by omega)
  omega

theorem value_lt_of_n_lt {l r : Bignum} (normal : r.v.getLast? ≠ some 0) (fewer : l.n < r.n) : l.value < r.value := by
  have small := digitsValue_lt l.v
  have large := le_value normal (by omega)
  have grows : (2 ^ 32) ^ l.v.length ≤ (2 ^ 32) ^ (r.n - 1) :=
    Nat.pow_le_pow_right (by decide) (by unfold n at fewer ⊢; omega)
  exact Nat.lt_of_lt_of_le small (grows.trans large)

theorem value_pos (normal : bn.v.getLast? ≠ some 0) : 0 < bn.value ↔ bn.n ≠ 0 := by
  constructor
  · intro positive none
    have empty : bn.v = [] := List.eq_nil_of_length_eq_zero none
    rw [value, empty] at positive
    simp at positive
  · exact fun some => Nat.lt_of_lt_of_le (Nat.pow_pos (by decide)) (le_value normal some)

theorem normalize_spec (bn : Bignum) :
    bn.normalize.v.getLast? ≠ some 0 ∧ bn.normalize.value = bn.value ∧ bn.normalize.n ≤ bn.n := by
  obtain ⟨v⟩ := bn
  unfold normalize value n
  dsimp only
  induction v using List.reverseRecOn with
  | nil => simp
  | append_singleton v d ih =>
    rw [List.rdropWhile_concat]
    by_cases zero : d = 0
    · rw [if_pos (by simpa using zero)]
      refine ⟨ih.1, ?_, ?_⟩
      · rw [ih.2.1, digitsValue_append, zero]
        simp
      · rw [List.length_append]
        omega
    · rw [if_neg (by simpa using zero)]
      refine ⟨?_, rfl, le_refl _⟩
      rw [List.getLast?_append]
      simpa using zero

theorem normalize_valid (bounded : bn.n ≤ last) : bn.normalize.Valid :=
  ⟨(normalize_spec bn).2.2.trans bounded, (normalize_spec bn).1⟩

theorem addFrom_value (a b : List UInt32) (tmp : UInt64) (shorter : b.length ≤ a.length) (carry : tmp.toNat ≤ 1) :
    digitsValue (addFrom a b tmp).1 + (2 ^ 32) ^ a.length * (addFrom a b tmp).2.toNat =
        digitsValue a + digitsValue b + tmp.toNat ∧
      (addFrom a b tmp).1.length = a.length ∧ (addFrom a b tmp).2.toNat ≤ 1 := by
  induction a generalizing b tmp with
  | nil =>
    obtain rfl : b = [] := List.eq_nil_of_length_eq_zero (Nat.le_zero.mp shorter)
    exact ⟨by simp [addFrom], rfl, carry⟩
  | cons d a ih =>
    have hd := d.toNat_lt
    cases b with
    | nil =>
      have sum : (tmp + d.toUInt64).toNat = tmp.toNat + d.toNat := by
        rw [UInt64.toNat_add, UInt32.toNat_toUInt64]
        omega
      obtain ⟨value, length, carry'⟩ := ih [] ((tmp + d.toUInt64) >>> 32) (Nat.zero_le _)
        (by rw [highDigit_toNat, sum]; omega)
      rw [highDigit_toNat, sum] at value
      refine ⟨?_, congrArg (· + 1) length, carry'⟩
      simp only [addFrom, digitsValue_cons, lowDigit_toNat, sum, List.length_cons, digitsValue_nil] at value ⊢
      rw [pow_succ' (2 ^ 32) a.length, Nat.mul_assoc]
      generalize (2 ^ 32) ^ a.length * _ = weighted at value ⊢
      omega
    | cons e b =>
      have he := e.toNat_lt
      have sum : (tmp + d.toUInt64 + e.toUInt64).toNat = tmp.toNat + d.toNat + e.toNat := by
        rw [UInt64.toNat_add, UInt64.toNat_add, UInt32.toNat_toUInt64, UInt32.toNat_toUInt64]
        omega
      obtain ⟨value, length, carry'⟩ := ih b ((tmp + d.toUInt64 + e.toUInt64) >>> 32)
        (Nat.le_of_succ_le_succ shorter) (by rw [highDigit_toNat, sum]; omega)
      rw [highDigit_toNat, sum] at value
      refine ⟨?_, congrArg (· + 1) length, carry'⟩
      simp only [addFrom, digitsValue_cons, lowDigit_toNat, sum, List.length_cons] at value ⊢
      rw [pow_succ' (2 ^ 32) a.length, Nat.mul_assoc]
      generalize (2 ^ 32) ^ a.length * _ = weighted at value ⊢
      omega

theorem push_spec {digit : UInt32} (positive : digit ≠ 0)
    (fits : bn.value + (2 ^ 32) ^ bn.n * digit.toNat < (2 ^ 32) ^ last) : ∃ res, bn.push digit = .ok res ∧ res.Valid ∧
      res.value = bn.value + (2 ^ 32) ^ bn.n * digit.toNat := by
  have normal : (bn.v ++ [digit]).getLast? ≠ some 0 := by
    rw [List.getLast?_append]
    simpa using positive
  have value : (Bignum.mk (bn.v ++ [digit])).value = bn.value + (2 ^ 32) ^ bn.n * digit.toNat := by
    unfold Bignum.value
    rw [digitsValue_append]
    simp [n]
  have bounded : (Bignum.mk (bn.v ++ [digit])).n ≤ last := n_le normal (value ▸ fits)
  have room : bn.n < last := by
    unfold n at bounded ⊢
    rw [List.length_append] at bounded
    exact bounded
  exact ⟨_, if_pos room, ⟨bounded, normal⟩, value⟩

theorem valid_of_le {a res : Bignum} (valid : a.Valid) (length : res.n = a.n)
    (more : a.value ≤ res.value) : res.Valid := by
  refine ⟨length ▸ valid.bounded, fun zero => ?_⟩
  by_cases some : a.n = 0
  · have empty : res.v = [] := List.eq_nil_of_length_eq_zero (length.trans some)
    rw [empty] at zero
    simp at zero
  have nonempty : res.v ≠ [] := fun empty => by
    rw [List.getLast?_eq_none_iff.mpr empty] at zero
    simp at zero
  have split := List.dropLast_append_getLast nonempty
  rw [List.getLast?_eq_some_getLast nonempty, Option.some.injEq] at zero
  have small := digitsValue_lt res.v.dropLast
  have large := le_value valid.normal some
  have same : res.value = digitsValue res.v.dropLast := by
    rw [value, ← split, zero, digitsValue_append]
    simp
  rw [List.length_dropLast] at small
  have lengths : res.v.length - 1 = a.n - 1 := congrArg (· - 1) length
  rw [lengths] at small
  omega

theorem pushCarry_spec {a bn : Bignum} (valid : a.Valid) (length : bn.n = a.n) {tmp : UInt64}
    (carry : tmp.toNat < 2 ^ 32) {total : Nat} (sum : bn.value + (2 ^ 32) ^ a.n * tmp.toNat = total)
    (more : a.value ≤ total) (fits : total < (2 ^ 32) ^ last) :
    ∃ res, bn.pushCarry tmp = .ok res ∧ res.Valid ∧ res.value = total := by
  unfold pushCarry
  by_cases zero : tmp = 0
  · rw [if_neg (by simpa using zero)]
    rw [zero, UInt64.toNat_zero, Nat.mul_zero, Nat.add_zero] at sum
    exact ⟨bn, rfl, valid_of_le valid length (sum ▸ more), sum⟩
  rw [if_pos zero]
  have digit : tmp.toUInt32.toNat = tmp.toNat := by
    rw [UInt64.toNat_toUInt32, Nat.mod_eq_of_lt carry]
  have positive : tmp.toUInt32 ≠ 0 := fun is => zero (UInt64.toNat_inj.mp (by rw [← digit, is]; rfl))
  rw [← digit, ← length] at sum
  obtain ⟨res, pushed, resValid, resValue⟩ := push_spec positive (sum ▸ fits)
  exact ⟨res, pushed, resValid, resValue.trans sum⟩

theorem add2_spec {a b : Bignum} (valid : a.Valid) (shorter : b.n ≤ a.n) (fits : a.value + b.value < (2 ^ 32) ^ last) :
    ∃ res, a.add2 b = .ok res ∧ res.Valid ∧ res.value = a.value + b.value := by
  obtain ⟨value, length, carry⟩ := addFrom_value a.v b.v 0 shorter (by decide)
  rw [UInt64.toNat_zero, Nat.add_zero] at value
  unfold add2
  rw [if_neg (by omega)]
  exact @pushCarry_spec _ ⟨(addFrom a.v b.v 0).1⟩ valid length _ (by omega) _ value (Nat.le_add_right _ _) fits

/-- `Bignum_Add` adds. -/
theorem add_spec {a b : Bignum} (validA : a.Valid) (validB : b.Valid) (fits : a.value + b.value < (2 ^ 32) ^ last) :
    ∃ res, a.add b = .ok res ∧ res.Valid ∧ res.value = a.value + b.value := by
  unfold add
  by_cases shorter : b.n ≤ a.n
  · rw [if_pos shorter]
    exact add2_spec validA shorter fits
  · rw [if_neg shorter, Nat.add_comm a.value]
    exact add2_spec validB (by omega) (Nat.add_comm a.value _ ▸ fits)

theorem compareFrom_eq {l r : List UInt32} (same : l.length = r.length) :
    compareFrom l r = Ord.compare (digitsValue l.reverse) (digitsValue r.reverse) := by
  induction l generalizing r with
  | nil =>
    obtain rfl : r = [] := List.eq_nil_of_length_eq_zero same.symm
    rfl
  | cons d l ih =>
    cases r with
    | nil => simp at same
    | cons e r =>
      have lengths : l.length = r.length := Nat.succ.inj same
      have smallL := digitsValue_lt l.reverse
      have smallR := digitsValue_lt r.reverse
      rw [List.length_reverse] at smallL smallR
      rw [← lengths] at smallR
      simp only [compareFrom, List.reverse_cons, digitsValue_append, List.length_reverse, digitsValue_cons,
        digitsValue_nil, Nat.mul_zero, Nat.add_zero, ← lengths]
      generalize (2 ^ 32) ^ l.length = weight at smallL smallR
      -- The highest digit in which they differ decides.
      have decides : ∀ x y : Nat, x < y → ∀ u v, u < weight → v < weight →
          u + weight * x < v + weight * y := by
        intro x y less u v hu hv
        have step : weight * (x + 1) ≤ weight * y := Nat.mul_le_mul_left weight less
        rw [Nat.mul_succ] at step
        omega
      by_cases equal : d = e
      · subst equal
        rw [if_neg (by simp), ih lengths]
        rcases Nat.lt_trichotomy (digitsValue l.reverse) (digitsValue r.reverse) with less | eq | more
        · rw [Nat.compare_eq_lt.mpr less, Nat.compare_eq_lt.mpr (by omega)]
        · rw [eq]
          simp
        · rw [Nat.compare_eq_gt.mpr more, Nat.compare_eq_gt.mpr (by omega)]
      rw [if_pos equal]
      by_cases less : e < d
      · rw [if_pos less]
        exact (Nat.compare_eq_gt.mpr (decides _ _ (UInt32.lt_iff_toNat_lt.mp less) _ _ smallR smallL)).symm
      rw [if_neg less]
      have other : d.toNat < e.toNat := by
        have distinct : d.toNat ≠ e.toNat := fun is => equal (UInt32.toNat_inj.mp is)
        have order : ¬e.toNat < d.toNat := fun is => less (UInt32.lt_iff_toNat_lt.mpr is)
        omega
      exact (Nat.compare_eq_lt.mpr (decides _ _ other _ _ smallL smallR)).symm

/-- `Bignum_Compare` compares. -/
theorem compare_eq {l r : Bignum} (validL : l.Valid) (validR : r.Valid) :
    l.compare r = Ord.compare l.value r.value := by
  unfold compare
  by_cases same : l.n = r.n
  · rw [if_neg (by simpa using same), compareFrom_eq (by simpa [n] using same)]
    simp [value]
  rw [if_pos same]
  by_cases more : r.n < l.n
  · rw [if_pos more]
    exact (Nat.compare_eq_gt.mpr (value_lt_of_n_lt validL.normal more)).symm
  · rw [if_neg more]
    exact (Nat.compare_eq_lt.mpr (value_lt_of_n_lt validR.normal (by omega))).symm

end Bignum

end Ghdl.Fcvt
