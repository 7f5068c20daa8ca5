import Ghdl.Vhdl.ScanLiteral

/-!
# The two ways of the scanner

As long as the fast conversion goes on, its number is what the scan with a number of many digits has at the same
place. So both scans end in the same state, for each source that starts with a digit.
-/

namespace Ghdl.Vhdl

open Fcvt Bignum Fallible

variable {s : Scanner} {d fuel : Nat}

theorem Valid.unique {f g : Bignum} (validF : f.Valid) (validG : g.Valid) (same : f.value = g.value) : f = g := by
  rw [validF.eq_ofNat, validG.eq_ofNat, same]

/-- `Bignum_To_Int` returns numbers of two digits. -/
theorem toInt_spec {n : Bignum} (valid : n.Valid) :
    if n.value < 2 ^ 64 then (toInt n).1.toNat = n.value ∧ (toInt n).2 = true else toInt n = (0, false) := by
  obtain ⟨v⟩ := n
  have few : (Bignum.mk v).n ≤ 2 ↔ digitsValue v < 2 ^ 64 := by
    constructor
    · intro few
      have less := digitsValue_lt v
      have power : (2 ^ 32) ^ v.length ≤ (2 ^ 32) ^ 2 := Nat.pow_le_pow_right (by decide) few
      have square : ((2 : Nat) ^ 32) ^ 2 = 2 ^ 64 := by decide
      omega
    · intro small
      have square : ((2 : Nat) ^ 32) ^ 2 = 2 ^ 64 := by decide
      exact n_le valid.normal (by rw [square]; exact small)
  show if digitsValue v < 2 ^ 64 then _ else _
  rcases v with _ | ⟨low, _ | ⟨high, _ | ⟨third, v⟩⟩⟩
  · exact ⟨rfl, rfl⟩
  · rw [if_pos (few.mp (show 1 ≤ 2 by decide))]
    refine ⟨?_, rfl⟩
    show low.toUInt64.toNat = digitsValue [low]
    simp
  · rw [if_pos (few.mp (show 2 ≤ 2 by decide))]
    refine ⟨?_, rfl⟩
    have below := low.toNat_lt
    have below' := high.toNat_lt
    show (high.toUInt64 <<< 32 ||| low.toUInt64).toNat = digitsValue [low, high]
    have shifted : (high.toUInt64 <<< 32).toNat = high.toNat <<< 32 := by
      rw [UInt64.toNat_shiftLeft, UInt32.toNat_toUInt64]
      show high.toNat <<< 32 % 2 ^ 64 = _
      rw [Nat.shiftLeft_eq]
      omega
    rw [UInt64.toNat_or, shifted, UInt32.toNat_toUInt64, ← Nat.shiftLeft_add_eq_or_of_lt below, Nat.shiftLeft_eq]
    simp
    omega
  · have many : ¬(Bignum.mk (low :: high :: third :: v)).n ≤ 2 := by
      show ¬v.length + 1 + 1 + 1 ≤ 2
      omega
    rw [if_neg (fun small => many (few.mpr small))]
    rfl

theorem toInt_int (small : d < 2 ^ 32) : (toInt (int d)).1.toNat = d ∧ (toInt (int d)).2 = true := by
  obtain ⟨valid, value⟩ := int_spec small
  have spec := toInt_spec valid
  rw [value, if_pos (by omega)] at spec
  exact spec

theorem mulInt_int {c : Nat} (digit : c < 10) (small : d * 10 + c < 2 ^ 32) :
    mulInt (int d) 10 c = .ok (int (d * 10 + c)) := by
  obtain ⟨valid, value⟩ := @int_spec d (by omega)
  obtain ⟨valid', value'⟩ := int_spec small
  have room : (2 ^ 32) ^ 1 ≤ (2 ^ 32) ^ last := Nat.pow_le_pow_right (by decide) (by decide)
  obtain ⟨res, computed, validR, valueR⟩ := @mulInt_spec (int d) valid 10 c (by decide) (by decide) (by omega)
    (by rw [value]; omega)
  rw [computed, Valid.unique validR valid' (by rw [valueR, value, value'])]

theorem skipUnderscores_length (msg : String) (fuel : Nat) (s : Scanner) :
    (skipUnderscores msg fuel s).source.length ≤ s.source.length := by
  have shorter : s.next.source.length ≤ s.source.length := by
    show s.source.tail.length ≤ _
    rw [List.length_tail]
    exact Nat.sub_le _ 1
  induction fuel generalizing s with
  | zero => exact Nat.le_refl _
  | succ fuel ih =>
    unfold skipUnderscores
    split
    · exact shorter
    · refine Nat.le_trans (ih (s.next.error msg) ?_) shorter
      show s.source.tail.tail.length ≤ s.source.tail.length
      rw [List.length_tail]
      exact Nat.sub_le _ 1

theorem afterDigit_length (s : Scanner) : (afterDigit s).source.length ≤ s.source.length := by
  unfold afterDigit
  split
  · dsimp only
    split
    all_goals exact skipUnderscores_length _ _ s
  · exact Nat.le_refl _

/-- What `Scan_Integer` reads does not depend on the scale. -/
theorem scanInteger_scale (fuel : Nat) (res : Bignum) (scale scale' : Int) (s : Scanner) {β : Type}
    (cont : Bignum → Scanner → Except ScanExit β) : (scanInteger fuel res scale s >>= fun r => cont r.1 r.2.2) =
      scanInteger fuel res scale' s >>= fun r => cont r.1 r.2.2 := by
  induction fuel generalizing res scale scale' s with
  | zero => rfl
  | succ fuel ih =>
    unfold scanInteger
    cases checked s (mulInt res 10 (digitPos s.peek)) with
    | error _ => rfl
    | ok res =>
      show ((if _ then _ else _) >>= _) = ((if _ then _ else _) >>= _)
      by_cases more : (afterDigit s.next).peek.isDigit = true
      · rw [if_pos more, if_pos more]
        exact ih res _ _ _
      · rw [if_neg more, if_neg more]
        rfl

theorem scanRest_finished (fuel : Nat) (small : d ≤ 2147483647)
    (other : ¬(s.peek = '.' ∨ s.peek = '#' ∨ s.peek = 'e' ∨ s.peek = 'E' ∨ s.peek = ':')) :
    scanRest fuel (int d) s = .ok { s with token := some .integer, int64 := d } := by
  simp only [not_or] at other
  obtain ⟨noDot, noSign, noLower, noUpper, noColon⟩ := other
  obtain ⟨value, ok⟩ := @toInt_int d (by omega)
  have notBased : startsBased s = false := by
    unfold startsBased
    simp [noSign, noColon]
  have noExponent : scanExponent false s = .ok (0, s) := by
    unfold scanExponent
    rw [if_neg (by simp [noLower, noUpper])]
  have fits : ¬(0x7fffffffffffffff : UInt64) < (toInt (int d)).1 := by
    rw [UInt64.lt_iff_toNat_lt, value]
    show ¬9223372036854775807 < d
    omega
  unfold scanRest
  rw [if_neg noDot, notBased, if_neg Bool.false_ne_true]
  unfold scanEnd
  dsimp only
  rw [noExponent]
  have scaled : scaleInteger (int d) 10 0 { s with token := some .integer } = .ok (int d) := if_neg (by decide)
  show integerLiteral (int d) 10 0 s = _
  unfold integerLiteral
  dsimp only
  rw [scaled]
  show (if (0x7fffffffffffffff : UInt64) < (toInt (int d)).1 then _ else if (toInt (int d)).2 then _ else _) = _
  rw [if_neg fits, if_pos ok, value]

/-- What is left of a scan behind its first integer. -/
def afterFast (fuel : Nat) : Fast → Except ScanExit Scanner
  | .finished s => .ok s
  | .continued res s => scanRest fuel res s

theorem scanLiteral_eq (fuel : Nat) (s : Scanner) :
    scanLiteral fuel s = handled (fastLoop s.source.length 0 s >>= afterFast fuel) := by
  unfold scanLiteral
  refine congrArg handled (congrArg _ (funext fun fast => ?_))
  cases fast with
  | finished s => rfl
  | continued res s => rfl

theorem fastLoop_eq (fuel' : Nat) (scale : Int) (isDigit : s.peek.isDigit = true) (enough : s.source.length ≤ fuel)
    (small : d < fastLimit) :
    fastLoop fuel d s >>= afterFast fuel' = scanInteger fuel (int d) scale s >>= fun r => scanRest fuel' r.1 r.2.2 := by
  induction fuel generalizing d s scale with
  | zero =>
    have empty : s.source = [] := List.eq_nil_of_length_eq_zero (Nat.le_zero.mp enough)
    unfold Scanner.peek at isDigit
    rw [empty] at isDigit
    exact absurd isDigit (by decide)
  | succ fuel ih =>
    have digit := digitPos_lt isDigit
    have limit : fastLimit = 214748363 := rfl
    have fits : d * 10 + digitPos s.peek ≤ 2147483647 := by omega
    have shorter : (afterDigit s.next).source.length ≤ fuel := by
      have less := afterDigit_length s.next
      have tail : s.next.source.length = s.source.length - 1 := List.length_tail
      omega
    unfold fastLoop
    conv_rhs => unfold scanInteger
    rw [mulInt_int digit (by omega)]
    unfold integer
    rw [if_pos fits]
    show (if ¬(afterDigit s.next).peek.isDigit = true then _ else _) >>= _ =
      (if (afterDigit s.next).peek.isDigit = true then _ else _) >>= _
    by_cases more : (afterDigit s.next).peek.isDigit = true
    · rw [if_neg (not_not.mpr more), if_pos more]
      by_cases large : fastLimit ≤ d * 10 + digitPos s.peek
      · rw [if_pos large, scanInteger_scale fuel _ (scale + 1) 0 _ (scanRest fuel')]
        cases scanInteger fuel (int (d * 10 + digitPos s.peek)) 0 (afterDigit s.next) with
        | error _ | ok r => rfl
      · rw [if_neg large]
        exact ih (scale + 1) more shorter (Nat.lt_of_not_le large)
    rw [if_pos more, if_neg more]
    show _ = scanRest fuel' (int (d * 10 + digitPos s.peek)) (afterDigit s.next)
    by_cases goes : (afterDigit s.next).peek = '.' ∨ (afterDigit s.next).peek = '#' ∨ (afterDigit s.next).peek = 'e' ∨
        (afterDigit s.next).peek = 'E' ∨ (afterDigit s.next).peek = ':'
    · rw [if_pos goes]
      rfl
    · rw [if_neg goes, scanRest_finished fuel' fits goes]
      rfl

/-- The fast conversion makes no difference: the token, its value, the messages and the place in the source are those
of the scan with numbers of many digits. -/
theorem scanLiteral_bignum (fuel : Nat) (isDigit : s.peek.isDigit = true) :
    scanLiteral fuel s = scanLiteralBignum fuel s := by
  have zero : (0 : Nat) < fastLimit := by decide
  rw [scanLiteral_eq, fastLoop_eq fuel 0 isDigit (Nat.le_refl _) zero]
  rfl

end Ghdl.Vhdl
