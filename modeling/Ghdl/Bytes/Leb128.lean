import Mathlib.Data.Nat.Bitwise
import Ghdl.Bytes.Reader

/-!
# Numbers in groups of bits

A number is written some bits a byte, at most seven, the lowest ones first; the top bit of a byte says that more
follow. For a signed number the last byte carries its sign, and the reader fills the bits above it. Every word of
every width is read back, in the width it was written in.
-/

namespace Bytes

/-- The lowest bits of a number. -/
def low (g n : Nat) : UInt8 := UInt8.ofNat (n % 2 ^ g)

/-- The lowest bits of a byte. -/
def mask (g : Nat) : UInt8 := UInt8.ofNat (2 ^ g - 1)

theorem of_low {P : Nat → UInt8 → Prop} {g : Nat} (narrow : g < 8) (n : Nat)
    (all : ∀ g < 8, ∀ m < 2 ^ g, P g (UInt8.ofNat m)) : P g (low g n) :=
  all g narrow (n % 2 ^ g) (Nat.mod_lt n (Nat.two_pow_pos g))

variable {g : Nat}

section

variable (narrow : g < 8)
include narrow

theorem low_and (n : Nat) : low g n &&& mask g = low g n :=
  of_low (P := fun g b => b &&& mask g = b) narrow n (by decide)

theorem low_or_and (n : Nat) : (low g n ||| 0x80) &&& mask g = low g n :=
  of_low (P := fun g b => (b ||| 0x80) &&& mask g = b) narrow n (by decide)

theorem low_ends (n : Nat) : low g n &&& 0x80 = 0 :=
  of_low (P := fun _ b => b &&& 0x80 = 0) narrow n (by decide)

theorem low_or_continues (n : Nat) : (low g n ||| 0x80) &&& 0x80 ≠ 0 :=
  of_low (P := fun _ b => (b ||| 0x80) &&& 0x80 ≠ 0) narrow n (by decide)

theorem ofNat_add_low (n : Nat) : UInt8.ofNat (128 + n % 2 ^ g) = low g n ||| 0x80 := by
  have all : ∀ g < 8, ∀ m < 2 ^ g, UInt8.ofNat (128 + m) = UInt8.ofNat m ||| 0x80 := by decide
  exact all g narrow (n % 2 ^ g) (Nat.mod_lt n (Nat.two_pow_pos g))

end

theorem low_sign (n : Nat) : low 7 n &&& 0x40 ≠ 0 ↔ n.testBit 6 = true := by
  have all : ∀ m < 128, UInt8.ofNat m &&& 0x40 ≠ 0 ↔ m.testBit 6 = true := by decide
  have bit : (n % 2 ^ 7).testBit 6 = n.testBit 6 := by rw [Nat.testBit_mod_two_pow]; rfl
  rw [← bit]
  exact all (n % 128) (Nat.mod_lt n (by decide))

/-- The lowest bits of a byte, in a word. -/
def payload (g w : Nat) (b : UInt8) : BitVec w := (b &&& mask g).toBitVec.setWidth w

theorem getLsbD_low (narrow : g < 8) (n i : Nat) : (low g n).toBitVec.getLsbD i = (decide (i < g) && n.testBit i) := by
  have small : (low g n).toBitVec.toNat = n % 2 ^ g := by
    show (n % 2 ^ g) % 256 = n % 2 ^ g
    have bound := Nat.mod_lt n (Nat.two_pow_pos g)
    have fits : 2 ^ g ≤ 2 ^ 7 := Nat.pow_le_pow_right (by decide) (by omega)
    exact Nat.mod_eq_of_lt (by omega)
  rw [← BitVec.testBit_toNat, small]
  exact Nat.testBit_mod_two_pow n g i

theorem getLsbD_payload_low (narrow : g < 8) (w n i : Nat) :
    (payload g w (low g n)).getLsbD i = (decide (i < w) && (decide (i < g) && n.testBit i)) := by
  rw [payload, low_and narrow, BitVec.getLsbD_setWidth, getLsbD_low narrow]

theorem payload_low_or (narrow : g < 8) (w n : Nat) : payload g w (low g n ||| 0x80) = payload g w (low g n) := by
  rw [payload, payload, low_or_and narrow, low_and narrow]

/-- Write the number, in at most so many bytes. -/
def writeGroups (g : Nat) : Nat → Nat → List UInt8
  | 0, _ => []
  | fuel + 1, n =>
    let r := n % 2 ^ g
    let n := n / 2 ^ g
    if n = 0 then [UInt8.ofNat r] else UInt8.ofNat (128 + r) :: writeGroups g fuel n

variable {ε : Type} {w : Nat}

/-- Read the bytes of a number, those before it being in R. -/
def readGroupsLoop (eof : ε) (g : Nat) (r : BitVec w) (off : Nat) : List UInt8 → Except ε (BitVec w × List UInt8)
  | [] => .error eof
  | b :: rest =>
    let r := r ||| payload g w b <<< off
    if b &&& 0x80 = 0 then .ok (r, rest) else readGroupsLoop eof g r (off + g) rest

/-- Read an unsigned number. -/
def readGroups (eof : ε) (g w : Nat) : Reader ε (BitVec w) := readGroupsLoop eof g 0 0

theorem readGroupsLoop_write (eof : ε) (narrow : g < 8) {fuel n : Nat} (small : n < 2 ^ (g * fuel)) (positive : 0 < fuel)
    (r : BitVec w) (off : Nat) (rest : List UInt8) :
    readGroupsLoop eof g r off (writeGroups g fuel n ++ rest) = .ok (r ||| BitVec.ofNat w n <<< off, rest) := by
  induction fuel generalizing n r off with
  | zero => omega
  | succ fuel ih =>
    unfold writeGroups
    dsimp only
    split
    · rename_i last
      have whole : payload g w (low g n) = BitVec.ofNat w n := by
        apply BitVec.eq_of_getLsbD_eq
        intro i inside
        have fits : n < 2 ^ g := by
          have none := (Nat.div_eq_zero_iff).mp last
          have some := Nat.two_pow_pos g
          omega
        rw [getLsbD_payload_low narrow, BitVec.getLsbD_ofNat]
        by_cases below : i < g
        · simp [below]
        · have zero : n.testBit i = false :=
            Nat.testBit_lt_two_pow (Nat.lt_of_lt_of_le fits (Nat.pow_le_pow_right (by decide) (by omega)))
          simp [zero]
      show readGroupsLoop eof g r off (low g n :: rest) = _
      rw [readGroupsLoop, if_pos (low_ends narrow n), whole]
    · rename_i more
      have less : n / 2 ^ g < 2 ^ (g * fuel) := by
        apply Nat.div_lt_of_lt_mul
        calc n < 2 ^ (g * (fuel + 1)) := small
          _ = 2 ^ g * 2 ^ (g * fuel) := by rw [Nat.mul_succ, Nat.pow_add, Nat.mul_comm]
      have left : 0 < fuel := by
        apply Nat.pos_of_ne_zero
        intro none
        subst none
        exact more (by simpa using less)
      rw [ofNat_add_low narrow, List.cons_append, readGroupsLoop, if_neg (low_or_continues narrow n), ih less left,
        payload_low_or narrow]
      apply congrArg (fun v => Except.ok (v, rest))
      apply BitVec.eq_of_getLsbD_eq
      intro i inside
      simp only [BitVec.getLsbD_or, BitVec.getLsbD_shiftLeft, getLsbD_payload_low narrow, BitVec.getLsbD_ofNat,
        Nat.testBit_div_two_pow]
      by_cases first : i < off
      · have below : i < off + g := by omega
        simp [first, below]
      by_cases second : i < off + g
      · have near : i - off < g := by omega
        simp [first, second, near]
      have far : ¬ i - off < g := by omega
      have same : i - (off + g) + g = i - off := by omega
      have within : i - (off + g) < w := by omega
      have inner : i - off < w := by omega
      simp [first, second, far, same, within, inner]

theorem reads_groups (eof : ε) (narrow : g < 8) (fuel : Nat) {n : Nat} (small : n < 2 ^ (g * fuel))
    (positive : 0 < fuel) : Reads (readGroups eof g w) (writeGroups g fuel n) (BitVec.ofNat w n) := by
  intro rest
  have read := readGroupsLoop_write eof narrow small positive (0#w) 0 rest
  rw [BitVec.shiftLeft_zero, BitVec.zero_or] at read
  exact read

theorem takes_groups (eof : ε) (g w : Nat) : Takes 1 (readGroups eof g w) := by
  have all : ∀ bytes (r : BitVec w) off a rest, readGroupsLoop eof g r off bytes = .ok (a, rest) →
      rest.length + 1 ≤ bytes.length := by
    intro bytes
    induction bytes with
    | nil =>
      intro r off a rest run
      cases run
    | cons b bytes ih =>
      intro r off a rest run
      rw [readGroupsLoop] at run
      split at run
      · obtain ⟨_, rfl⟩ := Prod.mk.inj (Except.ok.inj run)
        exact Nat.le_refl _
      · exact Nat.le_succ_of_le (ih _ _ a rest run)
  exact fun bytes a rest run => all bytes 0 0 a rest run

/-- Write the word, in at most so many bytes. -/
def writeSleb : Nat → BitVec w → List UInt8
  | 0, _ => []
  | fuel + 1, v =>
    let r := low 7 v.toNat
    let v := v.sshiftRight 7
    if v = 0 ∧ r &&& 0x40 = 0 ∨ v = -1 ∧ r &&& 0x40 ≠ 0 then [r] else (r ||| 0x80) :: writeSleb fuel v

/-- Read the bytes of a word, those before it being in R. -/
def readSlebLoop (eof : ε) (r : BitVec w) (off : Nat) : List UInt8 → Except ε (BitVec w × List UInt8)
  | [] => .error eof
  | b :: rest =>
    let r := r ||| payload 7 w b <<< off
    let off := off + 7
    if b &&& 0x80 = 0 then
      if b &&& 0x40 ≠ 0 ∧ off < w then .ok (r ||| (-1 : BitVec w) <<< off, rest) else .ok (r, rest)
    else readSlebLoop eof r off rest

/-- Read a signed number. -/
def readSleb (eof : ε) (w : Nat) : Reader ε (BitVec w) := readSlebLoop eof 0 0

theorem getLsbD_sshiftRight_seven (v : BitVec w) {i : Nat} (above : 7 ≤ i) (inside : i < w) :
    (v.sshiftRight 7).getLsbD (i - 7) = v.getLsbD i := by
  have within : i - 7 < w := by omega
  have same : 7 + (i - 7) = i := by omega
  rw [BitVec.getLsbD_sshiftRight, same]
  simp [inside, within]

theorem payload_or_shift (v : BitVec w) (off : Nat) :
    payload 7 w (low 7 v.toNat) <<< off ||| (v.sshiftRight 7) <<< (off + 7) = v <<< off := by
  apply BitVec.eq_of_getLsbD_eq
  intro i inside
  simp only [BitVec.getLsbD_or, BitVec.getLsbD_shiftLeft, getLsbD_payload_low (g := 7) (by decide), BitVec.testBit_toNat]
  by_cases first : i < off
  · have below : ¬ off + 7 ≤ i := by omega
    simp [first, below]
  have within : i - off < w := by omega
  by_cases second : i < off + 7
  · have near : i - off < 7 := by omega
    simp [first, second, near, within]
  · have far : ¬ i - off < 7 := by omega
    have same : i - (off + 7) = i - off - 7 := by omega
    rw [same, getLsbD_sshiftRight_seven v (by omega) within]
    simp [first, second, far, inside]

theorem sshiftRight_all (v : BitVec w) {off : Nat} (outside : w ≤ off) :
    v.sshiftRight off = if v.msb then -1 else 0 := by
  apply BitVec.eq_of_getLsbD_eq
  intro i inside
  have none : ¬ off + i < w := by omega
  have within : ¬ w ≤ i := by omega
  have ones : (-1 : BitVec w) = BitVec.allOnes w := BitVec.neg_one_eq_allOnes
  rw [BitVec.getLsbD_sshiftRight, ones]
  cases v.msb with
  | false => simp [none]
  | true => simp [none, within, inside]

theorem sshiftRight_ends (v : BitVec w) (wide : 7 ≤ w) {off : Nat} (outside : w ≤ off + 7) :
    v.sshiftRight (off + 7) = 0 ∧ low 7 (v.sshiftRight off).toNat &&& 0x40 = 0 ∨
      v.sshiftRight (off + 7) = -1 ∧ low 7 (v.sshiftRight off).toNat &&& 0x40 ≠ 0 := by
  have top : (v.sshiftRight off).toNat.testBit 6 = v.msb := by
    have within : ¬ w ≤ 6 := by omega
    rw [BitVec.testBit_toNat, BitVec.getLsbD_sshiftRight]
    by_cases six : off + 6 < w
    · have last : off + 6 = w - 1 := by omega
      simp only [within, decide_false, Bool.not_false, Bool.true_and, if_pos six]
      rw [BitVec.msb_eq_getLsbD_last, last]
    · simp [within, six]
  have sign := low_sign (v.sshiftRight off).toNat
  rw [top] at sign
  rw [sshiftRight_all v outside]
  cases negative : v.msb with
  | true => exact Or.inr ⟨rfl, sign.mpr negative⟩
  | false =>
    have clear : ¬ low 7 (v.sshiftRight off).toNat &&& 0x40 ≠ 0 := by
      rw [sign, negative]
      decide
    exact Or.inl ⟨rfl, not_not.mp clear⟩

theorem readSlebLoop_write (eof : ε) (wide : 7 ≤ w) (v : BitVec w) {fuel off : Nat} (inside : off < w)
    (enough : w ≤ off + 7 * fuel) (r : BitVec w) (rest : List UInt8) :
    readSlebLoop eof r off (writeSleb fuel (v.sshiftRight off) ++ rest) =
      .ok (r ||| (v.sshiftRight off) <<< off, rest) := by
  induction fuel generalizing r off with
  | zero => omega
  | succ fuel ih =>
    have whole := payload_or_shift (v.sshiftRight off) off
    have next : (v.sshiftRight off).sshiftRight 7 = v.sshiftRight (off + 7) := BitVec.sshiftRight_add.symm
    rw [next] at whole
    unfold writeSleb
    dsimp only
    rw [next]
    by_cases ends : v.sshiftRight (off + 7) = 0 ∧ low 7 (v.sshiftRight off).toNat &&& 0x40 = 0 ∨
      v.sshiftRight (off + 7) = -1 ∧ low 7 (v.sshiftRight off).toNat &&& 0x40 ≠ 0
    · rw [if_pos ends, List.singleton_append, readSlebLoop]
      rw [if_pos (low_ends (by decide) _)]
      cases ends with
      | inl positive =>
        have clear : ¬ (low 7 (v.sshiftRight off).toNat &&& 0x40 ≠ 0 ∧ off + 7 < w) := fun both => both.1 positive.2
        rw [if_neg clear, ← whole, positive.1]
        simp
      | inr negative =>
        by_cases fits : off + 7 < w
        · rw [if_pos ⟨negative.2, fits⟩, ← whole, negative.1, BitVec.or_assoc]
        have clear : ¬ (low 7 (v.sshiftRight off).toNat &&& 0x40 ≠ 0 ∧ off + 7 < w) := fun both => fits both.2
        have gone : v.sshiftRight (off + 7) <<< (off + 7) = 0 := by
          apply BitVec.shiftLeft_eq_zero
          omega
        rw [if_neg clear, ← whole, gone]
        simp
    · have fits : off + 7 < w := by
        apply Nat.lt_of_not_le
        intro outside
        exact ends (sshiftRight_ends v wide outside)
      rw [if_neg ends, List.cons_append, readSlebLoop,
        if_neg (low_or_continues (by decide) _), ih fits (by omega), payload_low_or (by decide), BitVec.or_assoc, whole]

theorem reads_sleb (eof : ε) (wide : 7 ≤ w) {fuel : Nat} (enough : w ≤ 7 * fuel) (v : BitVec w) :
    Reads (readSleb eof w) (writeSleb fuel v) v := by
  intro rest
  have positive : 0 < w := by omega
  have filled : w ≤ 0 + 7 * fuel := by omega
  have read := readSlebLoop_write eof wide v positive filled 0#w rest
  rw [BitVec.sshiftRight_zero, BitVec.shiftLeft_zero, BitVec.zero_or] at read
  exact read

theorem takes_sleb (eof : ε) (w : Nat) : Takes 1 (readSleb eof w) := by
  have all : ∀ bytes (r : BitVec w) off a rest, readSlebLoop eof r off bytes = .ok (a, rest) →
      rest.length + 1 ≤ bytes.length := by
    intro bytes
    induction bytes with
    | nil =>
      intro r off a rest run
      cases run
    | cons b bytes ih =>
      intro r off a rest run
      rw [readSlebLoop] at run
      split at run
      · split at run
        all_goals
          obtain ⟨_, rfl⟩ := Prod.mk.inj (Except.ok.inj run)
          exact Nat.le_refl _
      · exact Nat.le_succ_of_le (ih _ _ a rest run)
  exact fun bytes a rest run => all bytes 0 0 a rest run

end Bytes
