import Ghdl.Fcvt.ToString
import Ghdl.Numbers.Numerals
import Ghdl.Numbers.Ties

/-!
# A count of digits after the point

`Format_Digits` writes a number with a count of digits after the point. `Format_Precision` rounds the digits of
`To_String` to that count: the digit after the last one decides, and for a 5 those behind it, so that a tie is rounded
to the lower number. A carry out of the first digit is one more digit in front of the point.
-/

namespace Ghdl.Fcvt

open Bignum Fallible
open Numbers (NearestDown NearestUp adjacent_decimals decimals fraction fraction_eq_numeral le_numeral_iff nearest_decimal
  nearest_decimal_exact numeral numeral_append numeral_cons numeral_lt numeral_pos_iff numeral_replicate_zero)

/-- `Str`, `Len` and `Exp` of `Format_Precision`: the characters up to `Len`, and the number is 0.STR * 10**EXP. -/
structure Decimal where
  str : List Char
  exp : Int
  deriving DecidableEq, Repr

/-- The loop that increments the last digit, for the digits from that one on to the first one. -/
def increment : List Char → List Char × Bool
  | [] => ([], true)
  | c :: cs =>
    if c < '9' then (Char.ofNat (c.toNat + 1) :: cs, false)
    else ('0' :: (increment cs).1, (increment cs).2)

/-- Whether the digits are incremented that are followed by these. -/
def roundsUp : List Char → Bool
  | [] => false
  | c :: cs => if c < '5' then false else if '5' < c then true else cs.any (· ≠ '0')

/-- `Format_Precision`. -/
def formatPrecision (d : Decimal) (prec : Nat) : Decimal :=
  let len : Int := d.str.length
  if len - d.exp ≤ prec then d
  else
    let nlen := prec + d.exp
    if nlen < 0 then ⟨['0'], 0⟩
    else if nlen < len then
      if roundsUp (d.str.drop nlen.toNat) then
        let incremented := increment (d.str.take nlen.toNat).reverse
        if incremented.2 then ⟨'1' :: List.replicate nlen.toNat '0', d.exp + 1⟩
        else ⟨incremented.1.reverse, d.exp⟩
      else ⟨d.str.take nlen.toNat, d.exp⟩
    else d

/-- The digits of an exponent in `Format_Image`, with the turns that are left. -/
def exponentDigits : Nat → Int → Bool → List Char
  | 0, _, _ => []
  | turns + 1, exp, b =>
    let d := (exp / 10000) % 10
    if d ≠ 0 ∨ b ∨ turns = 0 then Char.ofNat (48 + d.toNat) :: exponentDigits turns ((exp - d * 10000) * 10) true
    else exponentDigits turns ((exp - d * 10000) * 10) b

/-- The characters of `Format_Image` for what `To_String` returns. -/
def imageText (converted : Converted) : List Char :=
  let sign := if converted.isNeg then ['-'] else []
  let s := converted.out.str
  if !converted.isNum then sign ++ s
  else
    let mantissa := s.take 1 ++ '.' :: (if converted.out.len = 1 then ['0'] else s.drop 1)
    let exp := converted.exp.getD 0 - 1
    let exponent :=
      if exp ≠ 0 then
        'e' :: (if exp < 0 then '-' :: exponentDigits 5 (-exp) false else exponentDigits 5 exp false)
      else []
    sign ++ mantissa ++ exponent

/-- `Format_Image`, for a string up to `last`. -/
def formatImage (fuel last : Nat) (v : UInt64) : Except FcvtError (Option Output) := do
  match ← toString fuel 20 v with
  | none => .ok none
  | some converted =>
    let text := imageText converted
    if last < text.length then .error .indexCheck else .ok (some ⟨last, text, text.length⟩)

/-- The characters of `Format_Digits` for a finite number, after the sign. -/
def digitsText (d : Decimal) (ndigits : Nat) : List Char :=
  let len : Int := d.str.length
  let zeros := fun n : Int => List.replicate n.toNat '0'
  if d.exp ≤ 0 then
    -- Integer part is 0.
    '0' :: '.' :: (if len - d.exp ≤ ndigits then zeros (-d.exp) ++ d.str ++ zeros (ndigits - (len - d.exp))
      else zeros ndigits)
  else if len ≤ d.exp then
    -- No fractional part.
    d.str ++ zeros (d.exp - len) ++ '.' :: zeros ndigits
  else
    d.str.take d.exp.toNat ++ '.' :: (d.str.drop d.exp.toNat ++ zeros (ndigits - (len - d.exp)))

/-- `Format_Digits`, for a string up to `last`. -/
def formatDigits (fuel last : Nat) (v : UInt64) (ndigits : Nat) : Except FcvtError (Option Output) :=
  if ndigits = 0 then formatImage fuel last v
  else do
    match ← toString fuel 20 v with
    | none => .ok none
    | some converted =>
      let sign := if converted.isNeg then ['-'] else []
      let text :=
        if !converted.isNum then converted.out.str
        else digitsText (formatPrecision ⟨converted.out.str, converted.exp.getD 0⟩ ndigits) ndigits
      .ok (some ((sign ++ text).foldl Output.append ⟨last, [], 0⟩))

open Output (digitChar)

theorem digitChar_lt_nine : ∀ d < 10, digitChar d < '9' ↔ d < 9 := by decide

theorem digitChar_succ : ∀ d < 9, Char.ofNat ((digitChar d).toNat + 1) = digitChar (d + 1) := by decide

theorem digitChar_lt_five : ∀ d < 10, digitChar d < '5' ↔ d < 5 := by decide

theorem five_lt_digitChar : ∀ d < 10, '5' < digitChar d ↔ 5 < d := by decide

theorem digitChar_ne_zero : ∀ d < 10, digitChar d ≠ '0' ↔ d ≠ 0 := by decide

theorem increment_spec {ds : List Nat} (digits : ∀ d ∈ ds, d < 10) :
    ∃ ds', (increment (ds.map digitChar)).1 = ds'.map digitChar ∧ ds'.length = ds.length ∧ (∀ d ∈ ds', d < 10) ∧
      Nat.ofDigits 10 ds' + 10 ^ ds.length * (increment (ds.map digitChar)).2.toNat = Nat.ofDigits 10 ds + 1 := by
  induction ds with
  | nil => exact ⟨[], rfl, rfl, digits, rfl⟩
  | cons d ds ih =>
    have small := digits d List.mem_cons_self
    have others : ∀ e ∈ ds, e < 10 := fun e inside => digits e (List.mem_cons_of_mem d inside)
    have nine := digitChar_lt_nine d small
    rw [List.map_cons, increment]
    by_cases less : d < 9
    · rw [if_pos (nine.mpr less), digitChar_succ d less]
      refine ⟨(d + 1) :: ds, rfl, rfl, List.forall_mem_cons.mpr ⟨by omega, others⟩, ?_⟩
      rw [Bool.toNat_false, Nat.mul_zero, Nat.ofDigits_cons, Nat.ofDigits_cons]
      omega
    rw [if_neg fun is => less (nine.mp is)]
    obtain ⟨ds', chars, length, digits', value⟩ := ih others
    refine ⟨0 :: ds', congrArg ('0' :: ·) chars, congrArg (· + 1) length,
      List.forall_mem_cons.mpr ⟨by decide, digits'⟩, ?_⟩
    rw [Nat.ofDigits_cons, Nat.ofDigits_cons, List.length_cons, pow_succ', Nat.mul_assoc]
    dsimp only
    omega

theorem roundsUp_eq {ds : List Nat} (digits : ∀ d ∈ ds, d < 10) :
    roundsUp (ds.map digitChar) = decide (10 ^ ds.length < 2 * numeral 10 ds) := by
  cases ds with
  | nil => rfl
  | cons d ds =>
    have small := digits d List.mem_cons_self
    have others : ∀ e ∈ ds, e < 10 := fun e inside => digits e (List.mem_cons_of_mem d inside)
    have below := numeral_lt (by decide) others
    have any : (ds.map digitChar).any (· ≠ '0') = decide (0 < numeral 10 ds) := by
      rw [Bool.eq_iff_iff, List.any_map, List.any_eq_true, decide_eq_true_eq, numeral_pos_iff (by decide)]
      refine exists_congr fun e => and_congr_right fun inside => ?_
      rw [Function.comp_apply, decide_eq_true_eq]
      exact digitChar_ne_zero e (others e inside)
    rw [List.map_cons, roundsUp, List.length_cons, numeral_cons, pow_succ', any]
    have unit : 0 < 10 ^ ds.length := Nat.pow_pos (by decide)
    generalize numeral 10 ds = r at below ⊢
    generalize 10 ^ ds.length = u at below unit ⊢
    rcases Nat.lt_trichotomy d 5 with less | rfl | more
    · rw [if_pos ((digitChar_lt_five d small).mpr less)]
      have product : d * u ≤ 4 * u := Nat.mul_le_mul_right u (by omega)
      exact (decide_eq_false (by omega)).symm
    · rw [if_neg (by decide), if_neg (by decide), decide_eq_decide]
      omega
    · rw [if_neg fun is => absurd ((digitChar_lt_five d small).mp is) (by omega),
        if_pos ((five_lt_digitChar d small).mpr more)]
      have product : 6 * u ≤ d * u := Nat.mul_le_mul_right u more
      exact (decide_eq_true (by omega)).symm

/-- The digits of a number 0.DS * 10**K, of which the first one is not 0, unless the number is 0. -/
structure Digits (ds : List Nat) (k : Int) : Prop where
  digits : ∀ d ∈ ds, d < 10
  leading : 0 < k → ∃ d ds', ds = d :: ds' ∧ (d ≠ 0 ∨ ds' = [] ∧ k = 1)

variable {ds : List Nat} {k : Int} {n : Nat}

theorem fraction_scaled {j : Nat} (places : (ds.length : Int) - k = n + j) :
    fraction 10 ds * 10 ^ k = numeral 10 ds / ((10 : Nat) : ℚ) ^ (n + j) := by
  have shifted : k = (ds.length : Int) - (n + j : Nat) := by omega
  rw [fraction_eq_numeral (by decide), shifted, zpow_sub₀ (by norm_num), zpow_natCast, zpow_natCast]
  push_cast
  field_simp

/-- What `Format_Precision` returns: digits with no more places, which denote the nearest number with the places. -/
structure Precise (ds : List Nat) (k : Int) (n : Nat) (ds' : List Nat) (k' : Int) : Prop extends Digits ds' k' where
  places : (ds'.length : Int) - k' ≤ n
  nearest : NearestDown (decimals 10 n) (fraction 10 ds * 10 ^ k)
    ((numeral 10 ds' * 10 ^ (n - ((ds'.length : Int) - k')).toNat : Nat) / ((10 : Nat) : ℚ) ^ n)

theorem precise_self (digits : Digits ds k) (places : (ds.length : Int) - k ≤ n) : Precise ds k n ds k := by
  refine ⟨digits, places, ?_⟩
  obtain ⟨i, exponent⟩ : ∃ i : Nat, (n : Int) - ((ds.length : Int) - k) = i := ⟨(n - (ds.length - k)).toNat, by omega⟩
  have shifted : k = (i : Int) + ds.length - n := by omega
  have same : fraction 10 ds * 10 ^ k = ((numeral 10 ds * 10 ^ i : Nat) : ℚ) / ((10 : Nat) : ℚ) ^ n := by
    rw [fraction_eq_numeral (by decide), shifted, zpow_sub₀ (by norm_num), zpow_add₀ (by norm_num), zpow_natCast,
      zpow_natCast, zpow_natCast]
    push_cast
    field_simp
  rw [exponent, Int.toNat_natCast, same]
  exact nearest_decimal_exact (by decide) _

theorem precise_small (digits : ∀ d ∈ ds, d < 10) (some' : 0 < n) (small : n + k < 0) : Precise ds k n [0] 0 := by
  refine ⟨⟨by simp, fun positive => absurd positive (by decide)⟩, ?_, ?_⟩
  · simp only [List.length_singleton]
    omega
  obtain ⟨j, places⟩ : ∃ j : Nat, (ds.length : Int) - k = n + j := ⟨(ds.length - k - n).toNat, by omega⟩
  have below := numeral_lt (by decide) digits
  have more : 10 * 10 ^ ds.length ≤ 10 ^ j := by
    rw [← pow_succ']
    exact Nat.pow_le_pow_right (by decide) (by omega)
  have nearest := @nearest_decimal 10 n (by decide) (numeral 10 ds) j
  rw [Nat.div_eq_of_lt (by omega), Nat.mod_eq_of_lt (by omega), if_neg (by omega)] at nearest
  rw [fraction_scaled places]
  have zero : numeral 10 [0] = 0 := rfl
  rw [zero, Nat.zero_mul]
  exact nearest

theorem precise_rounded (digits : Digits ds k) {i : Nat} (kept : (n : Int) + k = i) (less : i < ds.length)
    {ds' : List Nat} {k' : Int} (digits' : Digits ds' k') (places : (ds'.length : Int) - k' = n)
    (value : numeral 10 ds' = numeral 10 (ds.take i) +
      if 10 ^ (ds.drop i).length < 2 * numeral 10 (ds.drop i) then 1 else 0) : Precise ds k n ds' k' := by
  refine ⟨digits', places.le, ?_⟩
  have split : numeral 10 ds = numeral 10 (ds.take i) * 10 ^ (ds.drop i).length + numeral 10 (ds.drop i) := by
    rw [← numeral_append, List.take_append_drop]
  have below : numeral 10 (ds.drop i) < 10 ^ (ds.drop i).length :=
    numeral_lt (by decide) fun d inside => digits.digits d (List.mem_of_mem_drop inside)
  have length : (ds.drop i).length = ds.length - i := List.length_drop
  have nearest := @nearest_decimal 10 n (by decide) (numeral 10 ds) (ds.drop i).length
  have quotient : numeral 10 ds / 10 ^ (ds.drop i).length = numeral 10 (ds.take i) := by
    rw [split, Nat.mul_comm, Nat.mul_add_div (Nat.pow_pos (by decide)), Nat.div_eq_of_lt below, Nat.add_zero]
  have rest : numeral 10 ds % 10 ^ (ds.drop i).length = numeral 10 (ds.drop i) := by
    rw [split, Nat.mul_comm, Nat.mul_add_mod, Nat.mod_eq_of_lt below]
  rw [quotient, rest, ← value] at nearest
  rw [fraction_scaled (show (ds.length : Int) - k = n + (ds.drop i).length by omega), places, Int.sub_self,
    Int.toNat_zero, pow_zero, Nat.mul_one]
  exact nearest

theorem Digits.kept (digits : Digits ds k) {i : Nat} (places : (n : Int) + k = i) (some' : 0 < n) (less : i < ds.length)
    {ds' : List Nat} (digits' : ∀ d ∈ ds', d < 10) (length : ds'.length = i)
    (more : numeral 10 (ds.take i) ≤ numeral 10 ds') : Digits ds' k := by
  refine ⟨digits', fun positive => ?_⟩
  obtain ⟨d, rest, rfl, first⟩ := digits.leading positive
  have nonzero : d ≠ 0 := by
    rcases first with nonzero | ⟨rfl, -⟩
    · exact nonzero
    · rw [List.length_singleton] at less
      omega
  obtain ⟨i, rfl⟩ : ∃ rest, i = rest + 1 := ⟨i - 1, by omega⟩
  obtain ⟨d', rest', rfl⟩ := List.exists_cons_of_length_eq_add_one length
  have others : ∀ e ∈ rest.take i, e < 10 := fun e inside =>
    digits.digits e (List.mem_cons_of_mem d (List.mem_of_mem_take inside))
  have others' : ∀ e ∈ rest', e < 10 := fun e inside => digits' e (List.mem_cons_of_mem d' inside)
  have taken : (rest.take i).length = i := by
    rw [List.length_take]
    rw [List.length_cons] at less
    omega
  have large := (le_numeral_iff (by decide) others).mpr nonzero
  rw [taken] at large
  rw [List.length_cons, Nat.add_right_cancel_iff] at length
  refine ⟨d', rest', rfl, Or.inl ((le_numeral_iff (by decide) others').mp ?_)⟩
  rw [length]
  exact large.trans more

/-- `Format_Precision` rounds the digits to the nearest number with the places, to the lower one for a tie. -/
theorem formatPrecision_spec (digits : Digits ds k) (some' : 0 < n) :
    ∃ ds' k', formatPrecision ⟨ds.map digitChar, k⟩ n = ⟨ds'.map digitChar, k'⟩ ∧ Precise ds k n ds' k' := by
  unfold formatPrecision
  simp only [List.length_map]
  by_cases enough : (ds.length : Int) - k ≤ n
  · rw [if_pos enough]
    exact ⟨ds, k, rfl, precise_self digits enough⟩
  rw [if_neg enough]
  by_cases small : (n : Int) + k < 0
  · rw [if_pos small]
    exact ⟨[0], 0, rfl, precise_small digits.digits some' small⟩
  rw [if_neg small, if_pos (by omega)]
  obtain ⟨i, places⟩ : ∃ i : Nat, (n : Int) + k = i := ⟨(n + k).toNat, by omega⟩
  have less : i < ds.length := by omega
  have taken : (ds.take i).length = i := by
    rw [List.length_take]
    omega
  have digitsT : ∀ d ∈ ds.take i, d < 10 := fun d inside => digits.digits d (List.mem_of_mem_take inside)
  have digitsD : ∀ d ∈ ds.drop i, d < 10 := fun d inside => digits.digits d (List.mem_of_mem_drop inside)
  rw [places, Int.toNat_natCast, ← List.map_drop, ← List.map_take, roundsUp_eq digitsD]
  by_cases up : 10 ^ (ds.drop i).length < 2 * numeral 10 (ds.drop i)
  · rw [decide_eq_true up, if_pos rfl, ← List.map_reverse]
    obtain ⟨rs, chars, length, digitsR, value⟩ :=
      @increment_spec (ds.take i).reverse fun d inside => digitsT d (List.mem_reverse.mp inside)
    rw [List.length_reverse, taken] at length value
    have sum : numeral 10 rs.reverse + 10 ^ i * (increment ((ds.take i).reverse.map digitChar)).2.toNat =
        numeral 10 (ds.take i) + 1 := by
      unfold numeral
      rw [List.reverse_reverse]
      exact value
    have digitsI : ∀ d ∈ rs.reverse, d < 10 := fun d inside => digitsR d (List.mem_reverse.mp inside)
    have lengthI : rs.reverse.length = i := List.length_reverse.trans length
    cases carried : (increment ((ds.take i).reverse.map digitChar)).2 with
    | false =>
      rw [carried, Bool.toNat_false, Nat.mul_zero, Nat.add_zero] at sum
      rw [if_neg Bool.false_ne_true, chars, ← List.map_reverse]
      refine ⟨rs.reverse, k, rfl, precise_rounded digits places less ?_ (by omega) (by rw [if_pos up]; exact sum)⟩
      exact digits.kept places some' less digitsI lengthI (by omega)
    | true =>
      rw [carried, Bool.toNat_true, Nat.mul_one] at sum
      rw [if_pos rfl]
      have below := numeral_lt (by decide) digitsT
      rw [taken] at below
      refine ⟨1 :: List.replicate i 0, k + 1, ?_, precise_rounded digits places less ⟨?_, ?_⟩ ?_ ?_⟩
      · rw [List.map_cons, List.map_replicate]
        rfl
      · exact List.forall_mem_cons.mpr ⟨by decide, fun d inside => by rw [List.eq_of_mem_replicate inside]; decide⟩
      · exact fun _ => ⟨1, _, rfl, Or.inl (by decide)⟩
      · rw [List.length_cons, List.length_replicate]
        omega
      · rw [if_pos up, numeral_cons, numeral_replicate_zero, List.length_replicate]
        omega
  · rw [decide_eq_false up, if_neg Bool.false_ne_true]
    refine ⟨ds.take i, k, rfl, precise_rounded digits places less ?_ (by omega) (by rw [if_neg up, Nat.add_zero])⟩
    exact digits.kept places some' less digitsT taken (le_refl _)

/-- The text of a number: its integer part, which does not begin with 0 unless it is 0, and the digits after the
point. -/
structure Fixed (n : Nat) (text : List Char) (y : ℚ) (int frac : List Nat) : Prop where
  written : text = int.map digitChar ++ '.' :: frac.map digitChar
  digits : ∀ d ∈ int ++ frac, d < 10
  leading : int = [0] ∨ ∃ d int', int = d :: int' ∧ d ≠ 0
  places : frac.length = n
  value : y = numeral 10 (int ++ frac) / ((10 : Nat) : ℚ) ^ n

theorem map_zeros (i : Nat) : (List.replicate i 0).map digitChar = List.replicate i '0' := by
  rw [List.map_replicate]
  rfl

theorem zeros_lt {d i : Nat} (inside : d ∈ List.replicate i 0) : d < 10 := by
  rw [List.eq_of_mem_replicate inside]
  decide

theorem digitsText_spec (digits : Digits ds k) (places : (ds.length : Int) - k ≤ n) :
    ∃ int frac, Fixed n (digitsText ⟨ds.map digitChar, k⟩ n)
      ((numeral 10 ds * 10 ^ (n - ((ds.length : Int) - k)).toNat : Nat) / ((10 : Nat) : ℚ) ^ n) int frac := by
  unfold digitsText
  simp only [List.length_map]
  by_cases small : k ≤ 0
  · rw [if_pos small, if_pos places]
    refine ⟨[0], List.replicate (-k).toNat 0 ++ ds ++ List.replicate (n - (ds.length - k)).toNat 0,
      ⟨?_, ?_, Or.inl rfl, ?_, ?_⟩⟩
    · rw [List.map_append, List.map_append, map_zeros, map_zeros]
      rfl
    · simp only [List.mem_append, List.mem_singleton]
      rintro d (rfl | (zero | inside) | zero)
      · decide
      · exact zeros_lt zero
      · exact digits.digits d inside
      · exact zeros_lt zero
    · simp only [List.length_append, List.length_replicate]
      omega
    · rw [numeral_append, numeral_append, numeral_append, numeral_replicate_zero, numeral_replicate_zero,
        List.length_replicate]
      have zero : numeral 10 [0] = 0 := rfl
      rw [zero, Nat.zero_mul, Nat.zero_mul, Nat.zero_add, Nat.zero_add, Nat.add_zero]
  rw [if_neg small]
  obtain ⟨d, rest, rfl, first⟩ := digits.leading (by omega)
  by_cases whole : ((d :: rest).length : Int) ≤ k
  · rw [if_pos whole]
    refine ⟨d :: rest ++ List.replicate (k - (d :: rest).length).toNat 0, List.replicate n 0, ⟨?_, ?_, ?_,
      List.length_replicate, ?_⟩⟩
    · rw [List.map_append, map_zeros, map_zeros, Int.toNat_natCast]
    · intro e inside
      rw [List.mem_append, List.mem_append] at inside
      rcases inside with (inside | zero) | zero
      · exact digits.digits e inside
      all_goals exact zeros_lt zero
    · by_cases nonzero : d ≠ 0
      · exact Or.inr ⟨d, _, rfl, nonzero⟩
      left
      obtain ⟨rfl, rfl⟩ := first.resolve_left nonzero
      rw [not_not] at nonzero
      rw [nonzero]
      rfl
    · rw [numeral_append, numeral_append, numeral_replicate_zero, numeral_replicate_zero, List.length_replicate,
        List.length_replicate, Nat.add_zero, Nat.add_zero, Nat.mul_assoc, ← pow_add]
      congr 4
      omega
  rw [if_neg whole]
  obtain ⟨i, isK⟩ : ∃ i : Nat, k = i + 1 := ⟨(k - 1).toNat, by omega⟩
  have isNat : k.toNat = i + 1 := by omega
  have nonzero : d ≠ 0 := by
    rcases first with nonzero | ⟨rfl, -⟩
    · exact nonzero
    · rw [List.length_singleton] at whole
      omega
  rw [isNat]
  refine ⟨(d :: rest).take (i + 1),
    (d :: rest).drop (i + 1) ++ List.replicate (n - ((d :: rest).length - k)).toNat 0, ⟨?_, ?_, ?_, ?_, ?_⟩⟩
  · rw [List.map_append, map_zeros, List.map_take, List.map_drop]
  · intro e inside
    rw [← List.append_assoc, List.take_append_drop, List.mem_append] at inside
    rcases inside with inside | zero
    · exact digits.digits e inside
    · exact zeros_lt zero
  · exact Or.inr ⟨d, _, rfl, nonzero⟩
  · rw [List.length_append, List.length_replicate, List.length_drop]
    omega
  · rw [← List.append_assoc, List.take_append_drop, numeral_append, numeral_replicate_zero, List.length_replicate,
      Nat.add_zero]

theorem foldl_append (last : Nat) (text : List Char) :
    text.foldl Output.append ⟨last, [], 0⟩ = ⟨last, text.take last, text.length⟩ := by
  induction text using List.reverseRecOn with
  | nil => simp
  | append_singleton text c ih =>
    rw [List.foldl_append, ih, List.foldl_cons, List.foldl_nil, Output.append, List.length_append]
    by_cases room : 1 + text.length ≤ last
    · rw [if_pos room, List.take_of_length_le (by omega), List.take_of_length_le (by simp; omega)]
      rfl
    · rw [if_neg room, List.take_append_of_le_length (by omega)]
      rfl

/-- The shortest decimal number of a word: that of `To_String`, and a single 0 for 0. -/
def ShortestDecimal (v : UInt64) (x : ℚ) (ds : List Nat) (k : Int) : Prop :=
  if x = 0 then ds = [0] ∧ k = 1 else Converts v x ds k

theorem fields_of_zero {v : UInt64} (zero : magnitude v = .finite 0) : exponentField v = 0 ∧ fractionField v = 0 := by
  unfold magnitude at zero
  by_cases special : exponentField v = 2047
  · rw [if_pos special] at zero
    split at zero <;> cases zero
  rw [if_neg special] at zero
  by_cases denormal : exponentField v = 0
  · rw [if_pos denormal, Magnitude.finite.injEq, mul_eq_zero, Nat.cast_eq_zero] at zero
    exact ⟨denormal, zero.resolve_right (by positivity)⟩
  · rw [if_neg denormal, Magnitude.finite.injEq] at zero
    have positive : (0 : ℚ) < (2 ^ 52 + fractionField v : Nat) * 2 ^ ((exponentField v : Int) - 1075) := by positivity
    exact absurd zero positive.ne'

/-- `To_String` for 0. -/
theorem toString_zero {v : UInt64} (zero : magnitude v = .finite 0) (fuel : Nat) :
    toString fuel 20 v = .ok (some ⟨⟨20, [digitChar 0], 1⟩, true, signBit v, some 1⟩) := by
  obtain ⟨isE, isM⟩ := fields_of_zero zero
  obtain ⟨sign, fraction, exponent⟩ := fields_eq v
  have m : v &&& 0xfffffffffffff = 0 := UInt64.toNat_inj.mp (fraction.trans isM)
  have empty : (context 0 0).f.n = 0 := by decide +kernel
  have valid : (context 0 0).f.isValid = true := by decide +kernel
  unfold toString
  dsimp only
  rw [exponent, isE, if_neg (by decide), m, valid, if_neg (by simp), if_pos empty, sign]
  rfl

/-- What `To_String` returns for a finite number. -/
theorem toString_digits {v : UInt64} {x : ℚ} (finite : magnitude v = .finite x) :
    ∃ ds k, ShortestDecimal v x ds k ∧ Digits ds k ∧ ∀ fuel, 17 ≤ fuel → toString fuel 20 v =
      .ok (some ⟨⟨20, ds.map digitChar, ds.length⟩, true, signBit v, some k⟩) := by
  unfold ShortestDecimal
  by_cases zero : x = 0
  · rw [zero] at finite
    exact ⟨[0], 1, by rw [if_pos zero]; exact ⟨rfl, rfl⟩, ⟨by simp, fun _ => ⟨0, [], rfl, Or.inr ⟨rfl, rfl⟩⟩⟩,
      fun fuel _ => toString_zero finite fuel⟩
  obtain ⟨ds, k, converts⟩ := toString_converts finite zero
  obtain ⟨d, ds', first, nonzero⟩ := converts.leading
  refine ⟨ds, k, by rw [if_neg zero]; exact converts, ⟨converts.digits, fun _ => ⟨d, ds', first, Or.inl nonzero⟩⟩, ?_⟩
  intro fuel enough
  rw [converts.returns fuel 20 enough, List.take_of_length_le]
  have length := converts.length
  rw [List.length_map]
  omega

/-- The sign of a number is written when it is a minus. -/
def signChars (v : UInt64) : List Char := if signBit v then ['-'] else []

/-- `Format_Digits` writes the decimal number with the count of digits after the point that is nearest to the shortest
one of the word, the lower one of two. -/
theorem formatDigits_rounds {v : UInt64} {x : ℚ} (finite : magnitude v = .finite x) (some' : 0 < n) {fuel : Nat}
    (enough : 17 ≤ fuel) (last : Nat) :
    ∃ ds k y text int frac, ShortestDecimal v x ds k ∧ NearestDown (decimals 10 n) (fraction 10 ds * 10 ^ k) y ∧
      Fixed n text y int frac ∧ formatDigits fuel last v n =
        .ok (some ⟨last, (signChars v ++ text).take last, (signChars v ++ text).length⟩) := by
  obtain ⟨ds, k, shortest, digits, returns⟩ := toString_digits finite
  obtain ⟨ds', k', rounded, precise⟩ := formatPrecision_spec digits some'
  obtain ⟨int, frac, fixed⟩ := digitsText_spec precise.toDigits precise.places
  refine ⟨ds, k, _, _, int, frac, shortest, precise.nearest, fixed, ?_⟩
  unfold formatDigits
  rw [if_neg (by omega), returns fuel enough]
  show Except.ok (some ((signChars v ++ digitsText (formatPrecision ⟨ds.map digitChar, k⟩ n) n).foldl Output.append
    ⟨last, [], 0⟩)) = _
  rw [rounded, foldl_append]

theorem magnitude_quarter : magnitude 0x3fd0000000000000 = .finite (1 / 4) := by
  have exponent : exponentField 0x3fd0000000000000 = 1021 := by decide
  have fraction : fractionField 0x3fd0000000000000 = 0 := by decide
  rw [magnitude, exponent, fraction, if_neg (by decide), if_neg (by decide)]
  norm_num

/-- A quarter with three digits. -/
theorem formatDigits_rounds_quarter : ∃ ds k y text int frac, ShortestDecimal 0x3fd0000000000000 (1 / 4) ds k ∧
      NearestDown (decimals 10 3) (fraction 10 ds * 10 ^ k) y ∧ Fixed 3 text y int frac ∧
      formatDigits 17 24 0x3fd0000000000000 3 = .ok (some ⟨24, (signChars 0x3fd0000000000000 ++ text).take 24,
        (signChars 0x3fd0000000000000 ++ text).length⟩) :=
  formatDigits_rounds magnitude_quarter (by decide) (le_refl 17) 24

/-- A quarter with one digit is 0.2, and not 0.3. -/
theorem formatDigits_tie : formatDigits 17 24 0x3fd0000000000000 1 = .ok (some ⟨24, ['0', '.', '2'], 3⟩) ∧
      ¬∃ ds k y text int frac, ShortestDecimal 0x3fd0000000000000 (1 / 4) ds k ∧
        NearestUp (decimals 10 1) (fraction 10 ds * 10 ^ k) y ∧ Fixed 1 text y int frac ∧
        formatDigits 17 24 0x3fd0000000000000 1 = .ok (some ⟨24, (signChars 0x3fd0000000000000 ++ text).take 24,
          (signChars 0x3fd0000000000000 ++ text).length⟩) := by
  have run : formatDigits 17 24 0x3fd0000000000000 1 = .ok (some ⟨24, ['0', '.', '2'], 3⟩) := by decide +kernel
  have digits : toString 17 20 0x3fd0000000000000 = .ok (some ⟨⟨20, ['2', '5'], 2⟩, true, false, some 0⟩) := by
    decide +kernel
  have plain : signChars 0x3fd0000000000000 = [] := by decide
  refine ⟨run, ?_⟩
  rintro ⟨ds, k, y, text, int, frac, shortest, up, fixed, written⟩
  unfold ShortestDecimal at shortest
  rw [if_neg (by norm_num)] at shortest
  have returns := shortest.returns 17 20 (le_refl 17)
  rw [digits] at returns
  simp only [Except.ok.injEq, Option.some.injEq, Converted.mk.injEq, Output.mk.injEq] at returns
  obtain ⟨⟨-, chars, length⟩, -, -, rfl⟩ := returns
  obtain ⟨a, b, rfl⟩ := List.length_eq_two.mp length.symm
  have zero : ∀ d < 10, '0' = digitChar d → d = 0 := by decide
  have two : ∀ d < 10, '2' = digitChar d → d = 2 := by decide
  have five : ∀ d < 10, '5' = digitChar d → d = 5 := by decide
  obtain ⟨isA, isB⟩ : '2' = digitChar a ∧ '5' = digitChar b := by simpa using chars
  have small := shortest.digits
  rw [two a (small a (by simp)) isA, five b (small b (by simp)) isB] at up
  -- The digits denote a quarter, which is rounded up to 0.3.
  have quarter : fraction 10 [2, 5] * 10 ^ (0 : Int) = 1 / 4 := by norm_num [fraction]
  rw [quarter] at up
  have above : NearestUp (decimals 10 1) (1 / 4) ((2 + 1 : Nat) / ((10 : Nat) : ℚ) ^ 1) :=
    (adjacent_decimals (by decide) 2).up_up (by norm_num) (by norm_num)
  have value := fixed.value
  rw [up.unique above] at value
  -- What is written is 0.2.
  rw [run] at written
  simp only [Except.ok.injEq, Option.some.injEq, Output.mk.injEq, plain, List.nil_append] at written
  obtain ⟨-, stored, count⟩ := written
  rw [List.take_of_length_le (by omega), fixed.written] at stored
  rw [fixed.written] at count
  obtain ⟨c, rfl⟩ := List.length_eq_one_iff.mp fixed.places
  obtain ⟨i, rfl⟩ : ∃ i, int = [i] := List.length_eq_one_iff.mp (by simpa using count)
  obtain ⟨isI, isC⟩ : '0' = digitChar i ∧ '2' = digitChar c := by simpa using stored
  have bounded := fixed.digits
  rw [zero i (bounded i (by simp)) isI, two c (bounded c (by simp)) isC] at value
  norm_num [numeral, Nat.ofDigits] at value

end Ghdl.Fcvt
