import Ghdl.Fcvt.Products
import Ghdl.Numbers.FreeFormat

/-!
# Dragon4

The digits of a number F * 2**E. `Dragon4_Prepare` makes a quotient of it, with half the gaps to the
neighbours, `Dragon4_Scale` estimates the power of ten that brings the first digit in front of the point, which
`Dragon4_Fixup` corrects, and `Dragon4_Generate` appends the digits.
-/

namespace Ghdl.Fcvt

open Bignum Fallible Numbers

/-- `Fcvt_Context`. -/
structure FcvtContext where
  /-- The number is F * 2**E. -/
  f : Bignum
  e : Int
  /-- The number is a power of 2. -/
  isPow2 : Bool
  /-- The exponent is the least one. -/
  isEmin : Bool
  /-- MP = MM, and MM is not set. -/
  equalM : Bool
  /-- The logarithm of the number, to estimate K. -/
  log2v : Int
  k : Int
  /-- The number is R / S. -/
  r : Bignum
  s : Bignum
  /-- Half the gap to the next number is MP / S. -/
  mp : Bignum
  /-- Half the gap to the previous number is MM / S. -/
  mm : Bignum
  deriving DecidableEq, Repr

/-- `Str` and `Len`: the characters that are appended, of which the first ones are stored. -/
structure Output where
  /-- `Str'Last`. -/
  last : Nat
  /-- The characters that are stored. -/
  str : List Char
  len : Nat
  deriving DecidableEq, Repr

namespace Output

/-- `Append`. -/
def append (out : Output) (c : Char) : Output :=
  { out with str := if 1 + out.len ≤ out.last then out.str ++ [c] else out.str, len := out.len + 1 }

/-- The character of a digit. -/
def digitChar (d : Nat) : Char :=
  if d < 10 then Char.ofNat ('0'.toNat + d) else Char.ofNat ('a'.toNat + d - 10)

/-- `Append_Digit`. -/
def appendDigit (out : Output) (d : Nat) : Output := out.append (digitChar d)

end Output

namespace FcvtContext

/-- `Dragon4_Prepare`. -/
def prepare (ctxt : FcvtContext) : Except FcvtError FcvtContext :=
  if 0 ≤ ctxt.e then
    if !ctxt.isPow2 then do
      let r ← mul ctxt.f (← pow2 (ctxt.e + 1).toNat)
      let mp ← pow2 ctxt.e.toNat
      .ok { ctxt with r, s := int 2, mp, equalM := true }
    else do
      let r ← mul ctxt.f (← pow2 (ctxt.e + 1 + 1).toNat)
      let mp ← pow2 (ctxt.e + 1).toNat
      let mm ← pow2 ctxt.e.toNat
      .ok { ctxt with r, s := int (2 * 2), mp, mm, equalM := false }
  else if ctxt.isEmin || !ctxt.isPow2 then do
    let r ← mulInt ctxt.f 2 0
    let s ← pow2 (-ctxt.e + 1).toNat
    .ok { ctxt with r, s, mp := int 1, equalM := true }
  else do
    let r ← mulInt ctxt.f (2 * 2) 0
    let s ← pow2 (-ctxt.e + 1 + 1).toNat
    .ok { ctxt with r, s, mp := int 2, mm := int 1, equalM := false }

/-- `if not Ctxt.Equal_M then`: MM is changed unless it is MP. -/
def changeMm (ctxt : FcvtContext) (f : Bignum → Except FcvtError Bignum) : Except FcvtError Bignum :=
  if !ctxt.equalM then f ctxt.mm else .ok ctxt.mm

/-- R, MP and MM are multiplied by ten. -/
def times10 (ctxt : FcvtContext) : Except FcvtError FcvtContext := do
  let r ← mulInt ctxt.r 10 0
  let mp ← mulInt ctxt.mp 10 0
  let mm ← ctxt.changeMm fun mm => mulInt mm 10 0
  .ok { ctxt with r, mp, mm }

/-- `Dragon4_Fixup`. -/
def fixup (ctxt : FcvtContext) : Except FcvtError FcvtContext := do
  if compare (← add ctxt.r ctxt.mp) ctxt.s = .gt then
    .ok { ctxt with k := ctxt.k + 1 }
  else
    ctxt.times10

/-- The estimate of K: log10(2) * 2**32 is about 1292913986. -/
def estimate (log2v : Int) : Int :=
  let l2 := log2v * 1292913986
  if 0 < l2.tmod (2 ^ 32) then l2.tdiv (2 ^ 32) + 1 else l2.tdiv (2 ^ 32)

/-- `Dragon4_Scale`. -/
def scale (ctxt : FcvtContext) : Except FcvtError FcvtContext := do
  let k := estimate ctxt.log2v
  if 0 ≤ k then
    let s ← mul ctxt.s (← pow 10 k.toNat)
    fixup { ctxt with k, s }
  else
    let t1 ← pow 10 (-k).toNat
    let r ← mul ctxt.r t1
    let mp ← mul ctxt.mp t1
    let mm ← ctxt.changeMm fun mm => mul mm t1
    fixup { ctxt with k, r, mp, mm }

/-- The next digit D of R / S, and what is left of R. -/
def divide (r s8 s4 s2 s1 : Bignum) : Bignum × Nat :=
  let step8 := divstep r s8
  let step4 := divstep step8.1 s4
  let step2 := divstep step4.1 s2
  let step1 := divstep step2.1 s1
  (step1.1, step8.2.toNat * 8 + step4.2.toNat * 4 + step2.2.toNat * 2 + step1.2.toNat)

/-- The stop conditions. -/
def conditions (ctxt : FcvtContext) : Except FcvtError (Bool × Bool) := do
  let cond1 := if !ctxt.equalM then compare ctxt.r ctxt.mm = .lt else compare ctxt.r ctxt.mp = .lt
  .ok (cond1, compare (← add ctxt.r ctxt.mp) ctxt.s = .gt)

/-- The last digit. -/
def lastDigit (ctxt : FcvtContext) (cond1 cond2 : Bool) (d : Nat) : Except FcvtError Nat :=
  if cond1 && !cond2 then .ok d
  else if !cond1 && cond2 then .ok (d + 1)
  else do
    if compare (← mulInt ctxt.r 2 0) ctxt.s = .gt then .ok (d + 1) else .ok d

/-- The loop of `Dragon4_Generate`, with a bound for its steps. -/
def generateFrom (s8 s4 s2 : Bignum) :
    Nat → FcvtContext → Output → Except FcvtError (Option (FcvtContext × Output))
  | 0, _, _ => .ok none
  | fuel + 1, ctxt, out => do
    let divided := divide ctxt.r s8 s4 s2 ctxt.s
    let ctxt := { ctxt with r := divided.1 }
    let conds ← ctxt.conditions
    if conds.1 || conds.2 then
      let d ← ctxt.lastDigit conds.1 conds.2 divided.2
      .ok (some (ctxt, out.appendDigit d))
    else
      let out := out.appendDigit divided.2
      let ctxt ← ctxt.times10
      generateFrom s8 s4 s2 fuel ctxt out

/-- `Dragon4_Generate`. -/
def generate (fuel : Nat) (ctxt : FcvtContext) (out : Output) :
    Except FcvtError (Option (FcvtContext × Output)) := do
  let s8 ← mulInt ctxt.s 8 0
  let s4 ← mulInt ctxt.s 4 0
  let s2 ← mulInt ctxt.s 2 0
  generateFrom s8 s4 s2 fuel ctxt out

/-- `Dragon4`. -/
def dragon4 (fuel : Nat) (ctxt : FcvtContext) (out : Output) :
    Except FcvtError (Option (FcvtContext × Output)) := do
  let ctxt ← ctxt.prepare
  let ctxt ← ctxt.scale
  ctxt.generate fuel out

end FcvtContext

namespace FcvtContext

/-- The numbers of a context. The gap below is MP if MM is not set. -/
structure Denotes (ctxt : FcvtContext) (r s mp mm : Nat) : Prop where
  validR : ctxt.r.Valid
  valueR : ctxt.r.value = r
  validS : ctxt.s.Valid
  valueS : ctxt.s.value = s
  validMp : ctxt.mp.Valid
  valueMp : ctxt.mp.value = mp
  equal : ctxt.equalM = true → mm = mp
  unequal : ctxt.equalM = false → ctxt.mm.Valid ∧ ctxt.mm.value = mm

variable {ctxt : FcvtContext} {r s mp mm : Nat}

section

variable (denotes : ctxt.Denotes r s mp mm)
include denotes

/-- MM is computed in the way of MP, unless it is MP. -/
theorem Denotes.mm_spec {f : Bignum → Except FcvtError Bignum}
    {g : Nat → Nat} (computes : ∀ bn : Bignum, bn.Valid → (bn.value = mp ∨ bn.value = mm) →
      ∃ res, f bn = .ok res ∧ res.Valid ∧ res.value = g bn.value) :
    ∃ mp' mm', f ctxt.mp = .ok mp' ∧ mp'.Valid ∧ mp'.value = g mp ∧ ctxt.changeMm f = .ok mm' ∧
      (ctxt.equalM = true → g mm = g mp) ∧ (ctxt.equalM = false → mm'.Valid ∧ mm'.value = g mm) := by
  obtain ⟨mp', computed, valid, value⟩ := computes ctxt.mp denotes.validMp (.inl denotes.valueMp)
  rw [denotes.valueMp] at value
  unfold changeMm
  rw [computed]
  cases equal : ctxt.equalM with
  | true =>
    refine ⟨mp', ctxt.mm, rfl, valid, value, rfl, fun _ => ?_, fun no => by simp at no⟩
    rw [denotes.equal equal]
  | false =>
    obtain ⟨validMm, valueMm⟩ := denotes.unequal equal
    obtain ⟨mm', computed', valid', value'⟩ := computes ctxt.mm validMm (.inr valueMm)
    rw [valueMm] at value'
    exact ⟨mp', mm', rfl, valid, value, computed', fun no => by simp at no, fun _ => ⟨valid', value'⟩⟩

theorem times10_spec (lower : mm ≤ mp) (fits : (r + mp) * 10 < (2 ^ 32) ^ last) :
    ∃ ctxt', ctxt.times10 = .ok ctxt' ∧ ctxt'.Denotes (r * 10) s (mp * 10) (mm * 10) ∧ ctxt'.k = ctxt.k := by
  have ten : ∀ bn : Bignum, bn.Valid → bn.value ≤ r + mp →
      ∃ res, mulInt bn 10 0 = .ok res ∧ res.Valid ∧ res.value = bn.value * 10 := by
    intro bn valid small
    obtain ⟨res, computed, valid', value⟩ := @mulInt_spec bn valid 10 0 (by decide) (by decide) (by decide)
      (lt_of_le_of_lt (Nat.mul_le_mul_right 10 small) fits)
    exact ⟨res, computed, valid', value⟩
  obtain ⟨r', computedR, validR, valueR⟩ := ten ctxt.r denotes.validR (by rw [denotes.valueR]; omega)
  obtain ⟨mp', mm', computedMp, validMp, valueMp, computedMm, equal, unequal⟩ :=
    @Denotes.mm_spec ctxt r s mp mm denotes (fun bn => mulInt bn 10 0) (· * 10)
      fun bn valid value => ten bn valid (by omega)
  refine ⟨{ ctxt with r := r', mp := mp', mm := mm' }, ?_, ⟨validR, by rw [valueR, denotes.valueR],
    denotes.validS, denotes.valueS, validMp, valueMp, equal, unequal⟩, rfl⟩
  unfold times10
  rw [bind_ok]
  refine ⟨r', computedR, ?_⟩
  rw [bind_ok]
  refine ⟨mp', computedMp, ?_⟩
  rw [bind_ok]
  exact ⟨mm', computedMm, rfl⟩

/-- `Bignum_Compare` with a sum. -/
theorem compare_add_spec (fits : r + mp < (2 ^ 32) ^ last) :
    ∃ sum, add ctxt.r ctxt.mp = .ok sum ∧ decide (compare sum ctxt.s = .gt) = decide (s < r + mp) := by
  obtain ⟨sum, computed, valid, value⟩ := add_spec denotes.validR denotes.validMp
    (by rw [denotes.valueR, denotes.valueMp]; exact fits)
  refine ⟨sum, computed, ?_⟩
  rw [compare_eq valid denotes.validS, value, denotes.valueR, denotes.valueMp, denotes.valueS, decide_eq_decide]
  exact Nat.compare_eq_gt

end

theorem divide_step {n div : Bignum} (validN : n.Valid) (validD : div.Valid) (small : n.value < 2 * div.value) :
    (n.divstep div).1.Valid ∧ (n.divstep div).1.value < div.value ∧
      n.value = (n.divstep div).2.toNat * div.value + (n.divstep div).1.value := by
  have longer : n.n ≤ div.n + 1 := by
    refine n_le validN.normal (small.trans_le ?_)
    have below := digitsValue_lt div.v
    have grows : (2 ^ 32) ^ (div.n + 1) = (2 ^ 32) ^ div.n * 2 ^ 32 := pow_succ _ _
    have le : div.value ≤ (2 ^ 32) ^ div.n := below.le
    rw [grows]
    omega
  obtain ⟨valid, dig, value⟩ := divstep_spec validN validD longer
  refine ⟨valid, ?_, ?_⟩
  · rw [value]
    split <;> omega
  rw [dig, value]
  split
  · next more =>
    rw [decide_eq_true more, Bool.toNat_true, Nat.one_mul]
    omega
  · next less =>
    rw [decide_eq_false less, Bool.toNat_false, Nat.zero_mul, Nat.zero_add]

theorem divide_spec {n s8 s4 s2 s1 : Bignum} (validN : n.Valid) (valid8 : s8.Valid) (valid4 : s4.Valid)
    (valid2 : s2.Valid) (valid1 : s1.Valid) (value8 : s8.value = s1.value * 8)
    (value4 : s4.value = s1.value * 4) (value2 : s2.value = s1.value * 2) (small : n.value < s1.value * 10) :
    (divide n s8 s4 s2 s1).1.Valid ∧ (divide n s8 s4 s2 s1).1.value = n.value % s1.value ∧
      (divide n s8 s4 s2 s1).2 = n.value / s1.value := by
  unfold divide
  dsimp only
  obtain ⟨validA, smallA, splitA⟩ := divide_step validN valid8 (by omega)
  generalize n.divstep s8 = a at validA smallA splitA ⊢
  obtain ⟨validB, smallB, splitB⟩ := divide_step validA valid4 (by omega)
  generalize a.1.divstep s4 = b at validB smallB splitB ⊢
  obtain ⟨validC, smallC, splitC⟩ := divide_step validB valid2 (by omega)
  generalize b.1.divstep s2 = c at validC smallC splitC ⊢
  obtain ⟨validD, smallD, splitD⟩ := divide_step validC valid1 (by omega)
  generalize c.1.divstep s1 = d at validD smallD splitD ⊢
  have total : n.value = s1.value * (a.2.toNat * 8 + b.2.toNat * 4 + c.2.toNat * 2 + d.2.toNat) +
      d.1.value := by
    rw [splitA, splitB, splitC, splitD, value8, value4, value2]
    ring
  refine ⟨validD, ?_, ?_⟩
  · rw [total, Nat.mul_add_mod, Nat.mod_eq_of_lt smallD]
  · rw [total, Nat.mul_add_div (by omega), Nat.div_eq_of_lt smallD, Nat.add_zero]

theorem conditions_spec (denotes : ctxt.Denotes r s mp mm) (fits : r + mp < (2 ^ 32) ^ last) :
    ctxt.conditions = .ok (decide (r < mm), decide (s < r + mp)) := by
  obtain ⟨sum, computed, compared⟩ := compare_add_spec denotes fits
  have first : (if !ctxt.equalM then decide (compare ctxt.r ctxt.mm = .lt) else
      decide (compare ctxt.r ctxt.mp = .lt)) = decide (r < mm) := by
    cases equal : ctxt.equalM with
    | true =>
      simp only [Bool.not_true, Bool.false_eq_true, if_false]
      rw [compare_eq denotes.validR denotes.validMp, denotes.valueR, denotes.valueMp, ← denotes.equal equal,
        decide_eq_decide]
      exact Nat.compare_eq_lt
    | false =>
      obtain ⟨valid, value⟩ := denotes.unequal equal
      simp only [Bool.not_false, if_true]
      rw [compare_eq denotes.validR valid, denotes.valueR, value, decide_eq_decide]
      exact Nat.compare_eq_lt
  unfold conditions
  rw [bind_ok]
  refine ⟨sum, computed, ?_⟩
  rw [compared, ← first]
  cases ctxt.equalM <;> rfl

theorem lastDigit_spec {n : Nat} (denotes : ctxt.Denotes (n % s) s mp mm) (fits : n % s * 2 < (2 ^ 32) ^ last) :
    ctxt.lastDigit (decide (n % s < mm)) (decide (s < n % s + mp)) (n / s) = .ok (Numbers.lastDigit s n mp mm) := by
  have nearer : (do if compare (← mulInt ctxt.r 2 0) ctxt.s = .gt then .ok (n / s + 1) else .ok (n / s) :
      Except FcvtError Nat) = .ok (if s < n % s * 2 then n / s + 1 else n / s) := by
    obtain ⟨doubled, computed, valid, value⟩ := @mulInt_spec ctxt.r denotes.validR 2 0 (by decide)
      (by decide) (by decide) (by rw [denotes.valueR]; exact fits)
    rw [denotes.valueR, Nat.add_zero] at value
    rw [bind_ok]
    refine ⟨doubled, computed, ?_⟩
    rw [compare_eq valid denotes.validS, value, denotes.valueS]
    by_cases more : s < n % s * 2
    · rw [if_pos (Nat.compare_eq_gt.mpr more), if_pos more]
    · rw [if_neg (fun gt => more (Nat.compare_eq_gt.mp gt)), if_neg more]
  unfold lastDigit Numbers.lastDigit
  by_cases low : n % s < mm
  · by_cases high : s < n % s + mp
    · simpa [low, high] using nearer
    · simp [low, high]
  · by_cases high : s < n % s + mp
    · simp [low, high]
    · simpa [low, high] using nearer

/-- A division leaves the remainder, and returns the digit. -/
theorem divide_denotes {s8 s4 s2 : Bignum} (denotes : ctxt.Denotes r s mp mm) (valid8 : s8.Valid) (valid4 : s4.Valid)
    (valid2 : s2.Valid) (value8 : s8.value = s * 8) (value4 : s4.value = s * 4) (value2 : s2.value = s * 2)
    (bound : r < 10 * s) : (divide ctxt.r s8 s4 s2 ctxt.s).2 = r / s ∧ r % s < s ∧
      { ctxt with r := (divide ctxt.r s8 s4 s2 ctxt.s).1 }.Denotes (r % s) s mp mm := by
  obtain ⟨validR, valueR, digit⟩ := divide_spec denotes.validR valid8 valid4 valid2 denotes.validS
    (by rw [value8, denotes.valueS]) (by rw [value4, denotes.valueS]) (by rw [value2, denotes.valueS])
    (by rw [denotes.valueR, denotes.valueS]; omega)
  rw [denotes.valueR, denotes.valueS] at valueR digit
  exact ⟨digit, Nat.mod_lt r (by omega), { denotes with validR, valueR }⟩

/-- `Dragon4_Generate` appends the digits. -/
theorem generateFrom_spec {s8 s4 s2 : Bignum} {ds : List Nat} (free : FreeFormat 10 s r mp mm ds)
    {fuel : Nat} {out : Output} (denotes : ctxt.Denotes r s mp mm) (valid8 : s8.Valid)
    (valid4 : s4.Valid) (valid2 : s2.Valid) (value8 : s8.value = s * 8) (value4 : s4.value = s * 4)
    (value2 : s2.value = s * 2) (bound : r + mp ≤ 10 * s) (gap : 0 < mp) (lower : mm ≤ mp)
    (fits : s * 20 < (2 ^ 32) ^ last) (enough : ds.length ≤ fuel) :
    ∃ ctxt', generateFrom s8 s4 s2 fuel ctxt out = .ok (some (ctxt', ds.foldl Output.appendDigit out)) ∧
      ctxt'.k = ctxt.k := by
  induction free generalizing ctxt fuel out with
  | @last r mp mm stops =>
    obtain ⟨fuel, rfl⟩ := fuel_succ enough
    obtain ⟨digit, rest, denotes'⟩ := divide_denotes denotes valid8 valid4 valid2 value8 value4 value2 (by omega)
    have conds := conditions_spec denotes' (by omega)
    have decided := lastDigit_spec denotes' (by omega)
    refine ⟨{ ctxt with r := (divide ctxt.r s8 s4 s2 ctxt.s).1 }, ?_, rfl⟩
    unfold generateFrom
    dsimp only
    rw [bind_ok]
    refine ⟨_, conds, ?_⟩
    rw [if_pos (by simpa using stops), bind_ok]
    refine ⟨_, ?_, rfl⟩
    rw [digit]
    exact decided
  | @next r mp mm ds goes _ ih =>
    obtain ⟨fuel, rfl⟩ := fuel_succ enough
    obtain ⟨digit, rest, denotes'⟩ := divide_denotes denotes valid8 valid4 valid2 value8 value4 value2 (by omega)
    have conds := conditions_spec denotes' (by omega)
    obtain ⟨ctxt', multiplied, denotes'', k⟩ := times10_spec denotes' lower (by omega)
    obtain ⟨final, generated, k'⟩ := @ih ctxt' fuel (out.appendDigit (r / s)) denotes'' (by omega)
      (by omega) (by omega) (by simpa using enough)
    refine ⟨final, ?_, k'.trans k⟩
    unfold generateFrom
    dsimp only
    rw [bind_ok]
    refine ⟨_, conds, ?_⟩
    rw [if_neg (by simpa using goes), bind_ok, digit]
    exact ⟨ctxt', multiplied, generated⟩

/-- `Dragon4_Generate`. -/
theorem generate_spec {ds : List Nat} (free : FreeFormat 10 s r mp mm ds) {fuel : Nat} (out : Output)
    (denotes : ctxt.Denotes r s mp mm) (bound : r + mp ≤ 10 * s) (gap : 0 < mp) (lower : mm ≤ mp)
    (fits : s * 20 < (2 ^ 32) ^ last) (enough : ds.length ≤ fuel) :
    ∃ ctxt', ctxt.generate fuel out = .ok (some (ctxt', ds.foldl Output.appendDigit out)) ∧ ctxt'.k = ctxt.k := by
  have multiple : ∀ n : Nat, 0 < n → n ≤ 8 →
      ∃ res, mulInt ctxt.s n 0 = .ok res ∧ res.Valid ∧ res.value = s * n := by
    intro n positive small
    have less : s * n ≤ s * 8 := Nat.mul_le_mul_left s small
    obtain ⟨res, computed, valid, value⟩ := @mulInt_spec ctxt.s denotes.validS n 0 positive (by omega)
      (by decide) (by rw [denotes.valueS]; omega)
    exact ⟨res, computed, valid, by rw [value, denotes.valueS, Nat.add_zero]⟩
  obtain ⟨s8, computed8, valid8, value8⟩ := multiple 8 (by decide) (by decide)
  obtain ⟨s4, computed4, valid4, value4⟩ := multiple 4 (by decide) (by decide)
  obtain ⟨s2, computed2, valid2, value2⟩ := multiple 2 (by decide) (by decide)
  obtain ⟨ctxt', generated, k⟩ := @generateFrom_spec ctxt r s mp mm s8 s4 s2 ds free fuel out denotes
    valid8 valid4 valid2 value8 value4 value2 bound gap lower fits enough
  refine ⟨ctxt', ?_, k⟩
  unfold generate
  rw [bind_ok]
  refine ⟨s8, computed8, ?_⟩
  rw [bind_ok]
  refine ⟨s4, computed4, ?_⟩
  rw [bind_ok]
  exact ⟨s2, computed2, generated⟩

end FcvtContext

end Ghdl.Fcvt
