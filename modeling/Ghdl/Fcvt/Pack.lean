import Ghdl.Fcvt.ToFp

/-!
# Packing a binary64 number

`Pack` puts a significand of 53 bits, an exponent and a sign into a word. Below the least exponent of a
normal number the significand has to be shifted right by what is missing to that exponent. The amount in
the code grows with the exponent where it should fall.
-/

namespace Ghdl.Fcvt

open Fallible Numbers

/-- What is represented by the bits of a word below the sign. -/
inductive Magnitude where
  | finite (value : ℚ)
  | infinite
  | notANumber

/-- The sign bit of a word. -/
def signBit (word : UInt64) : Bool := 2 ^ 63 ≤ word.toNat

/-- The exponent field of a word. -/
def exponentField (word : UInt64) : Nat := word.toNat / 2 ^ 52 % 2 ^ 11

/-- The fraction field of a word. -/
def fractionField (word : UInt64) : Nat := word.toNat % 2 ^ 52

/-- The magnitude that a word encodes: the exponents 0 and 2047 are special. -/
def magnitude (word : UInt64) : Magnitude :=
  if exponentField word = 2047 then (if fractionField word = 0 then .infinite else .notANumber)
  else if exponentField word = 0 then .finite (fractionField word * 2 ^ (-1074 : Int))
  else .finite ((2 ^ 52 + fractionField word : Nat) * 2 ^ ((exponentField word : Int) - 1075))

/-- The bits of `Pack` below the sign. -/
def packMagnitude (m : UInt64) (e : Int) : Except FcvtError UInt64 :=
  if m = 0 then .ok 0
  else if m < 0x10000000000000 then .error .assertion
  else if 2047 ≤ e + 52 + 1023 then .ok 0x7ff0000000000000
  else if e + 52 + 1023 < 1 then
    if e + 52 + 1023 < -52 then .ok 0
    else .ok (shr64 m (52 + e + 52 + 1023).toNat)
  else .ok ((m &&& 0xfffffffffffff) ||| shl64 (e + 52 + 1023).toNat.toUInt64 52)

/-- `Pack`: (-1)**S * M * 2**E. -/
def pack (m : UInt64) (e : Int) (s : Bool) : Except FcvtError UInt64 :=
  if 0x20000000000000 ≤ m then .error .assertion
  else do
    let t ← packMagnitude m e
    .ok (if s then t ||| shl64 1 63 else t)

/-- The magnitude of M * 2**E as a binary64 number: below the least exponent of a normal number the
significand is shifted right by the difference. -/
def packed (m : Nat) (e : Int) : Magnitude :=
  if m = 0 then .finite 0
  else if 2047 ≤ e + 1075 then .infinite
  else if 1 ≤ e + 1075 then .finite (m * 2 ^ e)
  else .finite ((m / 2 ^ (1 - (e + 1075)).toNat : Nat) * 2 ^ (-1074 : Int))

theorem sign_fields {t : UInt64} (below : t.toNat < 2 ^ 63) (s : Bool) :
    signBit (if s then t ||| shl64 1 63 else t) = s ∧
      magnitude (if s then t ||| shl64 1 63 else t) = magnitude t := by
  have signed : (if s then t ||| shl64 1 63 else t).toNat = s.toNat * 2 ^ 63 + t.toNat := by
    cases s
    · simp
    · rw [if_pos rfl, UInt64.or_comm]
      exact Bignum.or_toNat (by decide) below
  generalize (if s then t ||| shl64 1 63 else t) = word at signed ⊢
  have exponent : exponentField word = exponentField t := by
    unfold exponentField
    cases s <;> simp at signed <;> omega
  have fraction : fractionField word = fractionField t := by
    unfold fractionField
    cases s <;> simp at signed <;> omega
  constructor
  · unfold signBit
    cases s <;> simp at signed <;> simp <;> omega
  · unfold magnitude
    rw [exponent, fraction]

theorem magnitude_small {t : UInt64} (small : t.toNat < 2 ^ 53) :
    magnitude t = .finite (t.toNat * 2 ^ (-1074 : Int)) := by
  unfold magnitude
  by_cases denormal : t.toNat < 2 ^ 52
  · have exponent : exponentField t = 0 := by
      unfold exponentField
      omega
    have fraction : fractionField t = t.toNat := Nat.mod_eq_of_lt denormal
    rw [if_neg (by omega), if_pos exponent, fraction]
  have exponent : exponentField t = 1 := by
    unfold exponentField
    omega
  have fraction : 2 ^ 52 + fractionField t = t.toNat := by
    unfold fractionField
    omega
  rw [if_neg (by omega), if_neg (by omega), fraction, exponent]
  norm_num

theorem magnitude_normal {m : UInt64} (bits : HasBits 53 m.toNat) {biased : Nat} (low : 1 ≤ biased)
    (high : biased < 2047) :
    ((m &&& 0xfffffffffffff) ||| shl64 biased.toUInt64 52).toNat = biased * 2 ^ 52 + (m.toNat - 2 ^ 52) ∧
      magnitude ((m &&& 0xfffffffffffff) ||| shl64 biased.toUInt64 52) =
        .finite (m.toNat * 2 ^ ((biased : Int) - 1075)) := by
  obtain ⟨least, below⟩ := bits
  have word : ((m &&& 0xfffffffffffff) ||| shl64 biased.toUInt64 52).toNat =
      biased * 2 ^ 52 + (m.toNat - 2 ^ 52) := by
    have masked : (m &&& 0xfffffffffffff).toNat = m.toNat - 2 ^ 52 := by
      rw [UInt64.toNat_and]
      refine (Nat.and_two_pow_sub_one_eq_mod _ 52).trans ?_
      omega
    have shifted : (shl64 biased.toUInt64 52).toNat = biased * 2 ^ 52 := by
      rw [shl64_toNat, Nat.toUInt64, UInt64.toNat_ofNat']
      omega
    rw [UInt64.or_comm, Bignum.or_toNat shifted (by omega), masked]
  refine ⟨word, ?_⟩
  generalize (m &&& 0xfffffffffffff) ||| shl64 biased.toUInt64 52 = t at word ⊢
  have exponent : exponentField t = biased := by
    unfold exponentField
    omega
  have fraction : 2 ^ 52 + fractionField t = m.toNat := by
    unfold fractionField
    omega
  unfold magnitude
  rw [if_neg (by omega), if_neg (by omega), fraction, exponent]

theorem packMagnitude_normal {m : UInt64} (bits : HasBits 53 m.toNat) {e : Int} (low : 1 ≤ e + 1075)
    (high : e + 1075 < 2047) :
    ∃ t, packMagnitude m e = .ok t ∧ t.toNat < 2 ^ 63 ∧ magnitude t = .finite (m.toNat * 2 ^ e) := by
  obtain ⟨biased, exponent⟩ : ∃ biased : Nat, e + 52 + 1023 = biased := ⟨(e + 1075).toNat, by omega⟩
  obtain ⟨word, encoded⟩ := magnitude_normal bits (by omega : 1 ≤ biased) (by omega)
  have below := bits.high
  have least := bits.low
  refine ⟨_, ?_, ?_, encoded.trans ?_⟩
  · unfold packMagnitude
    rw [exponent, if_neg, if_neg, if_neg (by omega), if_neg (by omega)]
    · rfl
    · exact fun less => absurd (UInt64.lt_iff_toNat_lt.mp less) (by simpa using least)
    · exact fun zero => absurd (congrArg UInt64.toNat zero) (by simp; omega)
  · omega
  · rw [show (biased : Int) - 1075 = e by omega]

theorem packMagnitude_infinite {m : UInt64} (bits : HasBits 53 m.toNat) {e : Int} (high : 2047 ≤ e + 1075) :
    ∃ t, packMagnitude m e = .ok t ∧ t.toNat < 2 ^ 63 ∧ magnitude t = .infinite := by
  have least := bits.low
  refine ⟨0x7ff0000000000000, ?_, by decide, rfl⟩
  unfold packMagnitude
  rw [if_neg, if_neg, if_pos (by omega)]
  · exact fun less => absurd (UInt64.lt_iff_toNat_lt.mp less) (by simpa using least)
  · exact fun zero => absurd (congrArg UInt64.toNat zero) (by simp; omega)

theorem packMagnitude_denormal {m : UInt64} (bits : HasBits 53 m.toNat) {e : Int} (low : e + 1075 < 1) :
    ∃ t, packMagnitude m e = .ok t ∧ t.toNat < 2 ^ 53 ∧
      t.toNat = if e + 1075 < -52 then 0 else m.toNat / 2 ^ (52 + (e + 1075)).toNat := by
  have least := bits.low
  have below := bits.high
  have nonzero : ¬m = 0 := fun zero => absurd (congrArg UInt64.toNat zero) (by simp; omega)
  have large : ¬m < 0x10000000000000 := fun less =>
    absurd (UInt64.lt_iff_toNat_lt.mp less) (by simpa using least)
  unfold packMagnitude
  rw [if_neg nonzero, if_neg large, if_neg (by omega), if_pos (by omega)]
  by_cases far : e + 1075 < -52
  · exact ⟨0, if_pos (by omega), by decide, by rw [if_pos far]; rfl⟩
  · refine ⟨_, if_neg (by omega), ?_, ?_⟩
    · rw [shr64_toNat]
      exact Nat.lt_of_le_of_lt (Nat.div_le_self _ _) below
    · rw [shr64_toNat, if_neg far, show 52 + e + 52 + 1023 = 52 + (e + 1075) by ring]

theorem shift_injective {m i j : Nat} (bits : HasBits 53 m) (some : i ≤ 52) (same : m / 2 ^ i = m / 2 ^ j) : i = j := by
  obtain ⟨least, below⟩ := bits
  have kept : 2 ^ (52 - i) ≤ m / 2 ^ i := by
    rw [Nat.le_div_iff_mul_le (Nat.two_pow_pos _), ← pow_add, Nat.sub_add_cancel some]
    exact least
  have positive : j ≤ 52 := by
    by_contra more
    have gone : m / 2 ^ j = 0 := Nat.div_eq_of_lt (below.trans_le (Nat.pow_le_pow_right (by decide) (by omega)))
    rw [same, gone] at kept
    exact absurd kept (Nat.not_le.mpr (Nat.two_pow_pos _))
  have kept' : 2 ^ (52 - j) ≤ m / 2 ^ j := by
    rw [Nat.le_div_iff_mul_le (Nat.two_pow_pos _), ← pow_add, Nat.sub_add_cancel positive]
    exact least
  have bounded : ∀ k ≤ 52, m / 2 ^ k < 2 ^ (53 - k) := fun k inside => by
    rw [Nat.div_lt_iff_lt_mul (Nat.two_pow_pos _), ← pow_add, Nat.sub_add_cancel (by omega)]
    exact below
  have left := (Nat.pow_lt_pow_iff_right (by decide : 1 < 2)).mp (kept.trans_lt (same ▸ bounded j positive))
  have right := (Nat.pow_lt_pow_iff_right (by decide : 1 < 2)).mp (kept'.trans_lt (same ▸ bounded i some))
  omega

theorem packs_iff {m : UInt64} (bits : m = 0 ∨ HasBits 53 m.toNat) (e : Int) (s : Bool) :
    (∃ word, pack m e s = .ok word ∧ signBit word = s ∧ magnitude word = packed m.toNat e) ↔
      m = 0 ∨ ¬(-52 ≤ e + 1075 ∧ e + 1075 ≤ 0) := by
  have bounded : ¬0x20000000000000 ≤ m := by
    rw [UInt64.le_iff_toNat_le]
    rcases bits with rfl | bits
    · decide
    · exact Nat.not_le.mpr bits.high
  -- The sign does not touch what is below it.
  have signed : ∀ {t}, packMagnitude m e = .ok t → t.toNat < 2 ^ 63 →
      ((∃ word, pack m e s = .ok word ∧ signBit word = s ∧ magnitude word = packed m.toNat e) ↔
        magnitude t = packed m.toNat e) := by
    intro t computed below
    obtain ⟨sign, same⟩ := sign_fields below s
    have returned : pack m e s = .ok (if s then t ||| shl64 1 63 else t) := by
      unfold pack
      rw [if_neg bounded, computed]
      rfl
    constructor
    · rintro ⟨word, packedWord, -, encoded⟩
      rw [returned, Except.ok.injEq] at packedWord
      rw [← encoded, ← packedWord, same]
    · exact fun encoded => ⟨_, returned, sign, same.trans encoded⟩
  rcases bits with rfl | bits
  · rw [signed (t := 0) rfl (by decide)]
    refine iff_of_true ?_ (Or.inl rfl)
    rw [magnitude_small (by decide)]
    simp [packed]
  have least := bits.low
  have nonzero : m ≠ 0 := fun zero => absurd (congrArg UInt64.toNat zero) (by simp; omega)
  have some : m.toNat ≠ 0 := by omega
  rw [or_iff_right nonzero]
  unfold packed at signed ⊢
  rw [if_neg some] at signed ⊢
  by_cases high : 2047 ≤ e + 1075
  · obtain ⟨t, computed, below, encoded⟩ := packMagnitude_infinite bits high
    rw [signed computed below, if_pos high]
    exact iff_of_true encoded (by omega)
  rw [if_neg high] at signed ⊢
  by_cases normal : 1 ≤ e + 1075
  · obtain ⟨t, computed, below, encoded⟩ := packMagnitude_normal bits normal (by omega)
    rw [signed computed below, if_pos normal]
    exact iff_of_true encoded (by omega)
  obtain ⟨t, computed, small, shifted⟩ := packMagnitude_denormal bits (by omega : e + 1075 < 1)
  have below : t.toNat < 2 ^ 63 := small.trans (by decide)
  have unit : (2 ^ (-1074 : Int) : ℚ) ≠ 0 := by positivity
  rw [signed computed below, if_neg normal, magnitude_small small, Magnitude.finite.injEq,
    mul_left_inj' unit, Nat.cast_inj, shifted]
  by_cases far : e + 1075 < -52
  · rw [if_pos far]
    refine iff_of_true (Nat.div_eq_of_lt ?_).symm (by omega)
    exact bits.high.trans_le (Nat.pow_le_pow_right (by decide) (by omega))
  · rw [if_neg far]
    refine iff_of_false (fun same => ?_) fun outside => outside ⟨by omega, by omega⟩
    have amounts := shift_injective bits (by omega) same
    omega

/-- `Pack` encodes the represented value unless the result is a denormal, or is just below them. -/
theorem pack_iff {m : UInt64} (bits : m = 0 ∨ HasBits 53 m.toNat) (e : Int) (s : Bool) :
    (∃ word, pack m e s = .ok word ∧ signBit word = s ∧ magnitude word = packed m.toNat e) ↔
      m = 0 ∨ ¬(-52 ≤ e + 1075 ∧ e + 1075 ≤ 0) :=
  packs_iff bits e s

theorem pack_minus_one : ∃ word, pack 0x10000000000000 (-52) true = .ok word ∧ signBit word = true ∧
      magnitude word = packed (0x10000000000000 : UInt64).toNat (-52) :=
  (pack_iff (Or.inr ⟨by decide, by decide⟩) (-52) true).mpr (Or.inr (by decide))

/-- The greatest power of two below the normal numbers becomes the least number of all. -/
theorem pack_denormal : pack 0x10000000000000 (-1075) false = .ok 1 ∧ HasBits 53 (0x10000000000000 : UInt64).toNat ∧
      ¬∃ word, pack 0x10000000000000 (-1075) false = .ok word ∧ signBit word = false ∧
        magnitude word = packed (0x10000000000000 : UInt64).toNat (-1075) := by
  have returned : pack 0x10000000000000 (-1075) false = .ok 1 := by decide +kernel
  refine ⟨returned, ⟨by decide, by decide⟩, ?_⟩
  rintro ⟨word, other, -, encoded⟩
  rw [returned, Except.ok.injEq] at other
  rw [← other, magnitude_small (by decide)] at encoded
  have half : packed (0x10000000000000 : UInt64).toNat (-1075) = .finite ((2 ^ 51 : Nat) * 2 ^ (-1074 : Int)) := rfl
  rw [half, Magnitude.finite.injEq, mul_left_inj' (by positivity), Nat.cast_inj] at encoded
  exact absurd encoded (by decide)

end Ghdl.Fcvt
