import Ghdl.Bytes.Leb128

/-!
# The numbers and values of a GHW file

What `grt-waves` writes for a number or for the value of a signal, and what `ghwlib` reads. A number of variable
length is always read back. A word of 64 bits is put together from two signed halves: it is read back only when
the sign of the lower half is that of the word.
-/

namespace Ghdl.Ghw

open Bytes

/-- How `ghwlib` stops: an error code, `abort`, an access outside of the table, or a loop that goes on. -/
inductive ReadError where
  | eof
  | format
  | abort
  | bounds
  | exhausted
deriving DecidableEq, Repr

abbrev GhwReader (α : Type) : Type := Reader ReadError α

/-- `Ghdl_Rtik` of the scalar types. -/
inductive Rtik where
  | b1
  | e8
  | e32
  | i32
  | i64
  | p32
  | p64
  | f64
deriving DecidableEq, Repr

/-- `Mode_Type`. -/
inductive Mode where
  | b1
  | e8
  | e32
  | i32
  | i64
  | f64
deriving DecidableEq, Repr

/-- The mode of the signals of a type. -/
def Rtik.mode : Rtik → Mode
  | .b1 => .b1
  | .e8 => .e8
  | .e32 => .e32
  | .i32 | .p32 => .i32
  | .i64 | .p64 => .i64
  | .f64 => .f64

/-- `Value_Union`, with the mode that selects its member. -/
inductive Value where
  | b1 (v : Bool)
  | e8 (v : UInt8)
  | e32 (v : BitVec 32)
  | i32 (v : BitVec 32)
  | i64 (v : BitVec 64)
  | f64 (v : Vector UInt8 8)
deriving DecidableEq, Repr

def Value.mode : Value → Mode
  | .b1 _ => .b1
  | .e8 _ => .e8
  | .e32 _ => .e32
  | .i32 _ => .i32
  | .i64 _ => .i64
  | .f64 _ => .f64

/-- `union ghw_val`: the value of a signal that was read. -/
inductive GhwVal where
  | b2 (v : UInt8)
  | e8 (v : UInt8)
  | i32 (v : BitVec 32)
  | i64 (v : BitVec 64)
  | f64 (v : Vector UInt8 8)
deriving DecidableEq, Repr

/-- The same value in `ghwlib`: its union has no member for an E32. -/
def Value.ghw : Value → Option GhwVal
  | .b1 v => some (.b2 (if v then 1 else 0))
  | .e8 v => some (.e8 v)
  | .e32 _ => none
  | .i32 v => some (.i32 v)
  | .i64 v => some (.i64 v)
  | .f64 v => some (.f64 v)

/-- `Wave_Put_ULEB128`: a number of 32 bits takes five bytes at most. -/
def wavePutUleb128 (n : Nat) : List UInt8 := writeGroups 7 5 n

/-- `Wave_Put_SLEB128`. -/
def wavePutSleb128 (v : BitVec 32) : List UInt8 := writeSleb 5 v

/-- `Wave_Put_LSLEB128`: a number of 64 bits takes ten bytes at most. -/
def wavePutLsleb128 (v : BitVec 64) : List UInt8 := writeSleb 10 v

/-- A byte of a word. -/
def wordByte (v : BitVec 64) (index : Nat) : UInt8 := ⟨(v >>> (8 * index)).setWidth 8⟩

/-- `Wave_Put_I64`: the word as it is in memory, the highest byte first when BE. -/
def wavePutI64 (be : Bool) (v : BitVec 64) : Vector UInt8 8 :=
  if be then
    #v[wordByte v 7, wordByte v 6, wordByte v 5, wordByte v 4, wordByte v 3, wordByte v 2, wordByte v 1, wordByte v 0]
  else
    #v[wordByte v 0, wordByte v 1, wordByte v 2, wordByte v 3, wordByte v 4, wordByte v 5, wordByte v 6, wordByte v 7]

/-- `ghw_read_uleb128`. -/
def readUleb128 : GhwReader (BitVec 32) := readGroups ReadError.eof 7 32

/-- `ghw_read_sleb128`. -/
def readSleb128 : GhwReader (BitVec 32) := readSleb ReadError.eof 32

/-- `ghw_read_lsleb128`. -/
def readLsleb128 : GhwReader (BitVec 64) := readSleb ReadError.eof 64

/-- Four bytes as an `int`, the lowest one first. -/
def fourBytes (b0 b1 b2 b3 : UInt8) : BitVec 32 :=
  b3.toBitVec.setWidth 32 <<< 24 ||| b2.toBitVec.setWidth 32 <<< 16 ||| b1.toBitVec.setWidth 32 <<< 8 |||
    b0.toBitVec.setWidth 32

/-- Two numbers of type `int` as one of type `int64_t`. -/
def halves (h l : BitVec 32) : BitVec 64 := h.signExtend 64 <<< 32 ||| l.signExtend 64

/-- `ghw_get_i64`. -/
def getI64 (wordBe : Bool) (b : Vector UInt8 8) : BitVec 64 :=
  let h := if wordBe then fourBytes b[3] b[2] b[1] b[0] else fourBytes b[4] b[5] b[6] b[7]
  let l := if wordBe then fourBytes b[7] b[6] b[5] b[4] else fourBytes b[0] b[1] b[2] b[3]
  halves h l

theorem reads_uleb128 {n : Nat} (small : n < 2 ^ 32) : Reads readUleb128 (wavePutUleb128 n) (BitVec.ofNat 32 n) :=
  reads_groups ReadError.eof (by decide) 5 (Nat.lt_of_lt_of_le small (by decide)) (by decide)

theorem reads_sleb128 (v : BitVec 32) : Reads readSleb128 (wavePutSleb128 v) v :=
  reads_sleb ReadError.eof (by decide) (Nat.le_of_ble_eq_true rfl) v

theorem reads_lsleb128 (v : BitVec 64) : Reads readLsleb128 (wavePutLsleb128 v) v :=
  reads_sleb ReadError.eof (by decide) (Nat.le_of_ble_eq_true rfl) v

/-- The word that `ghw_get_i64` makes of a word. -/
def seen (v : BitVec 64) : BitVec 64 := halves ((v >>> 32).setWidth 32) (v.setWidth 32)

theorem fourBytes_wordByte (v : BitVec 64) (index : Nat) :
    fourBytes (wordByte v index) (wordByte v (index + 1)) (wordByte v (index + 2)) (wordByte v (index + 3)) =
      (v >>> (8 * index)).setWidth 32 := by
  apply BitVec.eq_of_getLsbD_eq
  intro i inside
  simp only [fourBytes, wordByte, BitVec.getLsbD_or, BitVec.getLsbD_shiftLeft, BitVec.getLsbD_setWidth,
    BitVec.getLsbD_ushiftRight]
  by_cases first : i < 8
  · have h1 : i < 16 := by omega
    have h2 : i < 24 := by omega
    simp [first, h1, h2, inside]
  by_cases second : i < 16
  · have h2 : i < 24 := by omega
    have near : i - 8 < 8 := by omega
    have same : 8 * (index + 1) + (i - 8) = 8 * index + i := by omega
    have h3 : i - 8 < 32 := by omega
    simp [first, second, h2, near, same, inside, h3]
  by_cases third : i < 24
  · have near : i - 16 < 8 := by omega
    have far : ¬ i - 8 < 8 := by omega
    have same : 8 * (index + 2) + (i - 16) = 8 * index + i := by omega
    have h3 : i - 16 < 32 := by omega
    simp [first, second, third, near, far, same, inside, h3]
  have near : i - 24 < 8 := by omega
  have far : ¬ i - 8 < 8 := by omega
  have farther : ¬ i - 16 < 8 := by omega
  have same : 8 * (index + 3) + (i - 24) = 8 * index + i := by omega
  have h3 : i - 24 < 32 := by omega
  simp [first, second, third, near, far, farther, same, inside, h3]

theorem getI64_wavePutI64 (be : Bool) (v : BitVec 64) : getI64 be (wavePutI64 be v) = seen v := by
  have lower := fourBytes_wordByte v 0
  have upper := fourBytes_wordByte v 4
  rw [Nat.mul_zero, BitVec.ushiftRight_zero] at lower
  cases be with
  | false | true =>
    show halves (fourBytes (wordByte v 4) (wordByte v 5) (wordByte v 6) (wordByte v 7))
      (fourBytes (wordByte v 0) (wordByte v 1) (wordByte v 2) (wordByte v 3)) = seen v
    rw [lower, upper, seen]

/-- The sign of the lower half of the word is that of the whole word. -/
def Whole (v : BitVec 64) : Prop := v.toInt % 2 ^ 32 < 2 ^ 31 ∨ -2 ^ 31 ≤ v.toInt ∧ v.toInt < 0

instance (v : BitVec 64) : Decidable (Whole v) := inferInstanceAs (Decidable (_ ∨ _))

theorem getLsbD_seen (v : BitVec 64) {i : Nat} (inside : i < 64) :
    (seen v).getLsbD i = (v.getLsbD i || decide (32 ≤ i) && v.getLsbD 31) := by
  have top : (v.setWidth 32).msb = v.getLsbD 31 := by
    rw [BitVec.msb_eq_getLsbD_last, BitVec.getLsbD_setWidth]
    simp
  simp only [seen, halves, BitVec.getLsbD_or, BitVec.getLsbD_shiftLeft, BitVec.getLsbD_signExtend, BitVec.getLsbD_setWidth,
    BitVec.getLsbD_ushiftRight, top, inside]
  by_cases low : i < 32
  · have below : ¬ 32 ≤ i := by omega
    simp [low, below]
  have above : 32 ≤ i := by omega
  have within : i - 32 < 64 := by omega
  have half : i - 32 < 32 := by omega
  have same : 32 + (i - 32) = i := by omega
  simp [low, above, within, half, same]

theorem getLsbD_thirtyOne (v : BitVec 64) : v.getLsbD 31 = decide (2 ^ 31 ≤ v.toNat % 2 ^ 32) := by
  rw [← BitVec.testBit_toNat, Nat.testBit_eq_decide_div_mod_eq, decide_eq_decide]
  omega

theorem upper_ones_iff (v : BitVec 64) :
    (∀ i, 31 ≤ i → i < 64 → v.getLsbD i = true) ↔ -2 ^ 31 ≤ v.toInt ∧ v.toInt < 0 := by
  have range : -2 ^ 31 ≤ v.toInt ∧ v.toInt < 0 ↔ v.toNat / 2 ^ 31 = 2 ^ 33 - 1 := by
    have bound := v.isLt
    rw [BitVec.toInt_eq_toNat_cond]
    split <;> omega
  have shifted : (v >>> 31).toNat = v.toNat / 2 ^ 31 := by
    rw [BitVec.toNat_ushiftRight, Nat.shiftRight_eq_div_pow]
  rw [range, ← shifted]
  constructor
  · intro ones
    have same : v >>> 31 = BitVec.ofNat 64 (2 ^ 33 - 1) := by
      apply BitVec.eq_of_getLsbD_eq
      intro i inside
      rw [BitVec.getLsbD_ushiftRight, BitVec.getLsbD_ofNat, Nat.testBit_two_pow_sub_one]
      by_cases within : i < 33
      · rw [ones (31 + i) (by omega) (by omega)]
        simp [inside, within]
      · rw [BitVec.getLsbD_of_ge v (31 + i) (by omega)]
        simp [within]
    rw [same]
    rfl
  · intro ones i above inside
    have bit : (v >>> 31).toNat.testBit (i - 31) = v.getLsbD i := by
      have position : 31 + (i - 31) = i := by omega
      rw [BitVec.testBit_toNat, BitVec.getLsbD_ushiftRight, position]
    rw [← bit, ones, Nat.testBit_two_pow_sub_one]
    exact decide_eq_true (by omega)

/-- A word is read back when its lower half has its sign, and only then. -/
theorem seen_iff (v : BitVec 64) : seen v = v ↔ Whole v := by
  have parity : v.toInt % 2 ^ 32 < 2 ^ 31 ↔ v.getLsbD 31 = false := by
    rw [getLsbD_thirtyOne, decide_eq_false_iff_not, BitVec.toInt_eq_toNat_cond]
    split <;> omega
  unfold Whole
  rw [parity, ← upper_ones_iff]
  constructor
  · intro same
    cases low : v.getLsbD 31 with
    | false => exact Or.inl rfl
    | true =>
      refine Or.inr fun i above inside => ?_
      by_cases at_low : i = 31
      · rw [at_low, low]
      have upper := getLsbD_seen v inside
      have beyond : 32 ≤ i := by omega
      rw [same, low] at upper
      rw [upper]
      simp [beyond]
  · intro whole
    apply BitVec.eq_of_getLsbD_eq
    intro i inside
    rw [getLsbD_seen v inside]
    cases whole with
    | inl low => rw [low, Bool.and_false, Bool.or_false]
    | inr ones =>
      by_cases above : 32 ≤ i
      · simp [ones i (by omega) inside]
      · simp [above]

/-- The largest word is never read: the sign of its lower half would be that of the whole. -/
theorem halves_ne_intMax (h l : BitVec 32) : halves h l ≠ BitVec.intMax 64 := by
  intro same
  have low : (halves h l).getLsbD 31 = l.getLsbD 31 := by
    rw [halves, BitVec.getLsbD_or, BitVec.getLsbD_shiftLeft, BitVec.getLsbD_signExtend, BitVec.getLsbD_signExtend]
    rfl
  have high : (halves h l).getLsbD 63 = (h.getLsbD 31 || l.getLsbD 31) := by
    rw [halves, BitVec.getLsbD_or, BitVec.getLsbD_shiftLeft, BitVec.getLsbD_signExtend, BitVec.getLsbD_signExtend]
    rw [BitVec.msb_eq_getLsbD_last]
    rfl
  rw [same] at low high
  rw [← low] at high
  revert high
  cases h.getLsbD 31 <;> decide

/-- `Wave_Section`, and the tags that end a section: four characters. -/
def tag (a b c : Char) : Vector UInt8 4 := #v[a.toUInt8, b.toUInt8, c.toUInt8, 0]

/-- `memcmp` of four bytes. -/
def expect (hdr : Vector UInt8 4) : GhwReader Unit := do
  let b ← Reader.take ReadError.eof 4
  if b = hdr then return () else Reader.fail ReadError.format

theorem reads_expect (hdr : Vector UInt8 4) : Reads (expect hdr) hdr.toList () := by
  intro rest
  unfold expect
  rw [Reader.bind_of_ok (Reads.take ReadError.eof hdr rest), if_pos rfl]
  rfl

theorem takes_expect (hdr : Vector UInt8 4) : Takes 4 (expect hdr) := by
  show Takes (4 + 0) (Reader.take ReadError.eof 4 >>= _)
  refine (Takes.take ReadError.eof 4).bind fun b => ?_
  split
  · exact Takes.pure ()
  · exact Takes.fail _

/-- `Write_Value`. -/
def writeValue : Value → List UInt8
  | .b1 v => [if v then 1 else 0]
  | .e8 v => [v]
  | .e32 v => wavePutUleb128 v.toNat
  | .i32 v => wavePutSleb128 v
  | .i64 v => wavePutLsleb128 v
  | .f64 v => v.toList

/-- `ghw_read_value`, for a signal whose base type is of this kind: the other kinds abort. -/
def readValue : Rtik → GhwReader GhwVal
  | .b1 => do
    let v ← Reader.byte ReadError.eof
    return .b2 v
  | .e8 => do
    let v ← Reader.byte ReadError.eof
    return .e8 v
  | .i32 | .p32 => do
    let v ← readSleb128
    return .i32 v
  | .f64 => do
    let v ← Reader.take ReadError.eof 8
    return .f64 v
  | .p64 => do
    let v ← readLsleb128
    return .i64 v
  | .e32 | .i64 => Reader.fail .abort

/-- `ghw_read_value` has a case for the kind. -/
def Rtik.Readable (kind : Rtik) : Prop := kind ≠ .i64 ∧ kind ≠ .e32

instance (kind : Rtik) : Decidable kind.Readable := inferInstanceAs (Decidable (_ ∧ _))

theorem reads_value {kind : Rtik} {value : Value} (agrees : value.mode = kind.mode) (readable : kind.Readable) :
    ∃ val, value.ghw = some val ∧ Reads (readValue kind) (writeValue value) val := by
  cases value with
  | b1 v =>
    cases kind <;> simp [Value.mode, Rtik.mode] at agrees
    exact ⟨_, rfl, (Reads.byte ReadError.eof _).map GhwVal.b2⟩
  | e8 v =>
    cases kind <;> simp [Value.mode, Rtik.mode] at agrees
    exact ⟨_, rfl, (Reads.byte ReadError.eof v).map GhwVal.e8⟩
  | e32 v =>
    cases kind <;> simp [Value.mode, Rtik.mode] at agrees
    exact absurd rfl readable.2
  | i32 v =>
    cases kind <;> simp [Value.mode, Rtik.mode] at agrees
    all_goals exact ⟨_, rfl, (reads_sleb128 v).map GhwVal.i32⟩
  | i64 v =>
    cases kind <;> simp [Value.mode, Rtik.mode] at agrees
    · exact absurd rfl readable.1
    · exact ⟨_, rfl, (reads_lsleb128 v).map GhwVal.i64⟩
  | f64 v =>
    cases kind <;> simp [Value.mode, Rtik.mode] at agrees
    exact ⟨_, rfl, (Reads.take ReadError.eof v).map GhwVal.f64⟩

theorem takes_value (kind : Rtik) : Takes 0 (readValue kind) := by
  cases kind with
  | b1 => exact ((Takes.byte ReadError.eof).map GhwVal.b2).mono (Nat.zero_le 1)
  | e8 => exact ((Takes.byte ReadError.eof).map GhwVal.e8).mono (Nat.zero_le 1)
  | e32 | i64 => exact Takes.fail _
  | i32 | p32 => exact ((takes_sleb ReadError.eof 32).map GhwVal.i32).mono (Nat.zero_le 1)
  | p64 => exact ((takes_sleb ReadError.eof 64).map GhwVal.i64).mono (Nat.zero_le 1)
  | f64 => exact ((Takes.take ReadError.eof 8).map GhwVal.f64).mono (Nat.zero_le 8)

/-- `ghw_read_value` stops the program at a kind that it has no case for. -/
theorem readValue_abort {kind : Rtik} (unreadable : ¬ kind.Readable) (bytes : List UInt8) :
    readValue kind bytes = .error .abort := by
  cases kind <;> first | rfl | exact absurd (by decide) unreadable

end Ghdl.Ghw
