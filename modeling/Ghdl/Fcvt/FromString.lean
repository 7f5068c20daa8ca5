import Ghdl.Fcvt.FormatDigits
import Ghdl.Fcvt.ToFloat

/-!
# From a decimal literal to a binary64 number

`From_String` reads [+-]int[.int][e[+-]int]: the digits of both parts are those of F, and EXP is what is written less
the count of the digits after the point. Two texts of one number may take the two paths of `To_Float_64`, which round
a tie to different numbers.
-/

namespace Ghdl.Fcvt

open Bignum Fallible Numbers

/-- The ways a call of `From_String` ends without returning. -/
inductive FromStringError where
  /-- `raise Constraint_Error`, or a character after the last one is read. -/
  | constraintError
  | fcvt (e : FcvtError)
  deriving DecidableEq, Repr

/-- `Character'Pos (C) - Character'Pos ('0')`. -/
def digitPos (c : Char) : Nat := c.toNat - '0'.toNat

/-- An `Integer` without overflow check. -/
def wrapInteger (n : Int) : Int := n.bmod (2 ^ 32)

/-- The variables of the loop for the digits. -/
structure Scanned where
  f : Bignum
  nbrDigits : Nat
  pointPosition : Int
  deriving DecidableEq, Repr

/-- A leading and optional sign. -/
def scanSign : List Char → Bool × List Char
  | [] => (false, [])
  | c :: cs => if c = '-' then (true, cs) else if c = '+' then (false, cs) else (false, c :: cs)

/-- The loop for the digits, which stops at the end of the text or behind an E. -/
def scanDigits : List Char → Scanned → Except FromStringError (Scanned × Option (List Char))
  | [], s => .ok (s, none)
  | c :: cs, s =>
    if c.isDigit then do
      let f ← (mulInt s.f 10 (digitPos c)).mapError .fcvt
      scanDigits cs { s with f, nbrDigits := s.nbrDigits + 1 }
    else if c = '.' then scanDigits cs { s with pointPosition := s.nbrDigits }
    else if c = '_' then scanDigits cs s
    else if c = 'e' ∨ c = 'E' then .ok (s, some cs)
    else .error .constraintError

/-- The loop for the digits of the exponent. -/
def scanExponent : List Char → Int → Except FromStringError Int
  | [], exp => .ok exp
  | c :: cs, exp =>
    if c.isDigit then scanExponent cs (wrapInteger (exp * 10 + digitPos c))
    else if c = '_' then scanExponent cs exp
    else .error .constraintError

/-- The exponent of `From_String`, if there is one. -/
def readExponent : Option (List Char) → Except FromStringError Int
  | none => .ok 0
  | some cs =>
    if (scanSign cs).2 = [] then .error .constraintError
    else do
      let exp ← scanExponent (scanSign cs).2 0
      .ok (if (scanSign cs).1 then wrapInteger (-exp) else exp)

/-- `From_String`, with a bound for the steps of the division. -/
def fromString (fuel : Nat) (str : List Char) : Except FromStringError (Option UInt64) :=
  if (scanSign str).2 = [] then .error .constraintError
  else do
    let scanned ← scanDigits (scanSign str).2 ⟨⟨[]⟩, 0, -1⟩
    let exp ← readExponent scanned.2
    let exp := if scanned.1.pointPosition ≠ -1 then
        wrapInteger (exp - (scanned.1.nbrDigits - scanned.1.pointPosition)) else exp
    (toFloat64 fuel (scanSign str).1 scanned.1.f 10 exp).mapError .fcvt

/-- Digits, at least one, with underscores. -/
def IsInt (cs : List Char) : Prop := (∀ c ∈ cs, c.isDigit = true ∨ c = '_') ∧ ∃ c ∈ cs, c.isDigit = true

instance (cs : List Char) : Decidable (IsInt cs) :=
  decidable_of_iff ((cs.all fun c => c.isDigit || c == '_') = true ∧ cs.any Char.isDigit = true) (by simp [IsInt])

/-- An integer of a literal. -/
abbrev Numeral := {cs : List Char // IsInt cs}

/-- A decimal literal: [+-]int[.int][e[+-]int]. -/
structure DecimalLiteral where
  /-- The sign that is written, true for a minus. -/
  sign : Option Bool
  int : Numeral
  frac : Option Numeral
  /-- Whether the E is a capital, the sign and the integer. -/
  exponent : Option (Bool × Option Bool × Numeral)

/-- The text of a sign. -/
def signText : Option Bool → List Char
  | none => []
  | some true => ['-']
  | some false => ['+']

/-- The number of the digits, which continue those before. -/
def digitsFrom (n : Nat) (cs : List Char) : Nat :=
  (cs.filter Char.isDigit).foldl (fun n c => n * 10 + digitPos c) n

namespace DecimalLiteral

variable (l : DecimalLiteral)

/-- The text after the point. -/
def fracText : List Char := (l.frac.map fun frac => '.' :: frac.val).getD []

/-- The text of the exponent. -/
def exponentText : List Char :=
  (l.exponent.map fun e => (if e.1 then 'E' else 'e') :: (signText e.2.1 ++ e.2.2.val)).getD []

/-- The text. -/
def text : List Char := signText l.sign ++ (l.int.val ++ (l.fracText ++ l.exponentText))

/-- Whether the sign is a minus. -/
def neg : Bool := l.sign.getD false

/-- The digits after the point. -/
def fracDigits : List Char := (l.frac.map fun frac => frac.val).getD []

/-- All digits as one integer. -/
def digits : Nat := digitsFrom 0 (l.int.val ++ l.fracDigits)

/-- The exponent that is written. -/
def writtenExponent : Int :=
  (l.exponent.map fun e => if e.2.1 = some true then -(digitsFrom 0 e.2.2.val : Int) else digitsFrom 0 e.2.2.val).getD 0

/-- The exponent of the last digit. -/
def exp : Int := l.writtenExponent - (l.fracDigits.filter Char.isDigit).length

/-- The number without its sign. -/
def magnitude : ℚ := scaled l.digits 10 l.exp

/-- The number that is denoted. -/
def number : ℚ := if l.neg then -l.magnitude else l.magnitude

/-- The literal is within the capacity of the numbers of many digits, and its exponents are integers. -/
structure Fits : Prop where
  digits : l.digits < (2 ^ 32) ^ last
  written : |l.writtenExponent| < 2 ^ 31
  exp : -2 ^ 31 ≤ l.exp
  capacity : l.digits = 0 ∨ Capacity l.digits 10 l.exp

end DecimalLiteral

theorem wrapInteger_eq {n : Int} (low : -2 ^ 31 ≤ n) (high : n < 2 ^ 31) : wrapInteger n = n := by
  unfold wrapInteger
  rw [Int.bmod_def]
  omega

variable {c : Char}

theorem digitsFrom_digit (digit : c.isDigit = true) (n : Nat) (cs : List Char) :
    digitsFrom n (c :: cs) = digitsFrom (n * 10 + digitPos c) cs := by
  unfold digitsFrom
  rw [List.filter_cons_of_pos digit]
  rfl

theorem digitsFrom_other (other : ¬c.isDigit = true) (n : Nat) (cs : List Char) :
    digitsFrom n (c :: cs) = digitsFrom n cs := by
  unfold digitsFrom
  rw [List.filter_cons_of_neg other]

theorem digitsFrom_append (n : Nat) (cs cs' : List Char) :
    digitsFrom n (cs ++ cs') = digitsFrom (digitsFrom n cs) cs' := by
  unfold digitsFrom
  rw [List.filter_append, List.foldl_append]

theorem le_digitsFrom (n : Nat) (cs : List Char) : n ≤ digitsFrom n cs := by
  induction cs generalizing n with
  | nil => exact le_refl n
  | cons c cs ih =>
    by_cases digit : c.isDigit = true
    · rw [digitsFrom_digit digit]
      have rest := ih (n * 10 + digitPos c)
      omega
    · rw [digitsFrom_other digit]
      exact ih n

theorem digitPos_lt (digit : c.isDigit = true) : digitPos c < 10 := by
  have high : c.val ≤ '9'.val := by
    unfold Char.isDigit at digit
    exact (by simpa using digit : _ ∧ _).2
  have bound : c.toNat ≤ 57 := high
  have base : '0'.toNat = 48 := rfl
  unfold digitPos
  omega

theorem scanDigits_numeral {cs : List Char} (numeral : ∀ c ∈ cs, c.isDigit = true ∨ c = '_') (rest : List Char)
    {s : Scanned} (valid : s.f.Valid) (fits : digitsFrom s.f.value cs < (2 ^ 32) ^ last) :
    ∃ f : Bignum, f.Valid ∧ f.value = digitsFrom s.f.value cs ∧ scanDigits (cs ++ rest) s =
        scanDigits rest { s with f, nbrDigits := s.nbrDigits + (cs.filter Char.isDigit).length } := by
  induction cs generalizing s with
  | nil => exact ⟨s.f, valid, rfl, rfl⟩
  | cons c cs ih =>
    have others : ∀ c ∈ cs, c.isDigit = true ∨ c = '_' := fun d inside => numeral d (List.mem_cons_of_mem c inside)
    by_cases digit : c.isDigit = true
    · have small := digitPos_lt digit
      rw [digitsFrom_digit digit] at fits ⊢
      have below := le_digitsFrom (s.f.value * 10 + digitPos c) cs
      obtain ⟨f, multiplied, validF, valueF⟩ := @mulInt_spec s.f valid 10 (digitPos c) (by decide) (by decide)
        (by omega) (below.trans_lt fits)
      obtain ⟨final, validL, valueL, scanned⟩ := @ih others { s with f, nbrDigits := s.nbrDigits + 1 } validF
        (by rw [valueF]; exact fits)
      refine ⟨final, validL, by rw [valueL, valueF], ?_⟩
      rw [List.cons_append, scanDigits, if_pos digit, multiplied]
      refine scanned.trans ?_
      rw [List.filter_cons_of_pos digit, List.length_cons]
      simp only [Nat.add_assoc, Nat.add_comm 1]
    · have underscore := (numeral c List.mem_cons_self).resolve_left digit
      rw [digitsFrom_other digit] at fits ⊢
      obtain ⟨final, validL, valueL, scanned⟩ := ih others valid fits
      refine ⟨final, validL, valueL, ?_⟩
      rw [List.cons_append, scanDigits, if_neg digit, underscore, if_neg (by decide), if_pos rfl]
      refine scanned.trans ?_
      rw [List.filter_cons_of_neg (by decide)]

theorem scanExponent_numeral {cs : List Char} (numeral : ∀ c ∈ cs, c.isDigit = true ∨ c = '_') {n : Nat}
    (fits : digitsFrom n cs < 2 ^ 31) : scanExponent cs n = .ok (digitsFrom n cs : Int) := by
  induction cs generalizing n with
  | nil => rfl
  | cons c cs ih =>
    have others : ∀ c ∈ cs, c.isDigit = true ∨ c = '_' := fun d inside => numeral d (List.mem_cons_of_mem c inside)
    unfold scanExponent
    by_cases digit : c.isDigit = true
    · rw [digitsFrom_digit digit] at fits ⊢
      have below := le_digitsFrom (n * 10 + digitPos c) cs
      have small : wrapInteger ((n : Int) * 10 + digitPos c) = (n * 10 + digitPos c : Nat) := by
        rw [wrapInteger_eq (by omega) (by omega)]
        push_cast
        rfl
      rw [if_pos digit, small]
      exact ih others fits
    · rw [digitsFrom_other digit] at fits ⊢
      have underscore := (numeral c List.mem_cons_self).resolve_left digit
      rw [if_neg digit, if_pos underscore]
      exact ih others fits

theorem scanSign_numeral (sign : Option Bool) {cs : List Char} (numeral : IsInt cs) (rest : List Char) :
    scanSign (signText sign ++ (cs ++ rest)) = (sign.getD false, cs ++ rest) ∧ cs ++ rest ≠ [] := by
  obtain ⟨each, d, inside, -⟩ := numeral
  match cs with
  | [] => cases inside
  | c :: cs =>
    refine ⟨?_, List.cons_ne_nil _ _⟩
    match sign with
    | some true => rfl
    | some false => rfl
    | none =>
      have plain : c ≠ '-' ∧ c ≠ '+' := by
        rcases each c List.mem_cons_self with digit | rfl
        · constructor <;> rintro rfl <;> exact absurd digit (by decide)
        · decide
      show (if c = '-' then _ else if c = '+' then _ else _) = _
      rw [if_neg plain.1, if_neg plain.2]
      rfl

namespace DecimalLiteral

variable {l : DecimalLiteral}

theorem scanDigits_exponentText (s : Scanned) : scanDigits l.exponentText s =
    .ok (s, l.exponent.map fun e => signText e.2.1 ++ e.2.2.val) := by
  unfold exponentText
  match l.exponent with
  | none => rfl
  | some (false, _, _) => rfl
  | some (true, _, _) => rfl

theorem readExponent_eq (small : |l.writtenExponent| < 2 ^ 31) :
    readExponent (l.exponent.map fun e => signText e.2.1 ++ e.2.2.val) = .ok l.writtenExponent := by
  unfold writtenExponent at small ⊢
  match l.exponent, small with
  | none, _ => rfl
  | some (capital, sign, numeral), small =>
    obtain ⟨signed, nonempty⟩ := scanSign_numeral sign numeral.2 []
    rw [List.append_nil] at signed nonempty
    simp only [Option.map_some, Option.getD_some] at small ⊢
    have fits : digitsFrom 0 numeral.val < 2 ^ 31 := by
      split at small
      · rw [abs_neg, abs_of_nonneg (Int.natCast_nonneg _)] at small
        omega
      · rw [abs_of_nonneg (Int.natCast_nonneg _)] at small
        omega
    rw [readExponent, signed, if_neg nonempty, bind_ok]
    refine ⟨_, scanExponent_numeral numeral.2.1 fits, ?_⟩
    match sign with
    | none => rfl
    | some false => rfl
    | some true =>
      show Except.ok (wrapInteger (-(digitsFrom 0 numeral.val : Int))) = Except.ok _
      rw [wrapInteger_eq (by omega) (by omega), if_pos rfl]

theorem scanDigits_text (fits : l.digits < (2 ^ 32) ^ last) :
    ∃ f : Bignum, ∃ nbr : Nat, ∃ point : Int, f.Valid ∧ f.value = l.digits ∧
      scanDigits (l.int.val ++ (l.fracText ++ l.exponentText)) ⟨⟨[]⟩, 0, -1⟩ =
        .ok (⟨f, nbr, point⟩, l.exponent.map fun e => signText e.2.1 ++ e.2.2.val) ∧
      (if point ≠ -1 then (nbr : Int) - point else 0) = (l.fracDigits.filter Char.isDigit).length := by
  have empty : (⟨[]⟩ : Bignum).Valid := ⟨by decide, by decide⟩
  have total : l.digits = digitsFrom (digitsFrom 0 l.int.val) l.fracDigits := digitsFrom_append 0 _ _
  rw [total] at fits ⊢
  obtain ⟨f, valid, value, scanned⟩ := @scanDigits_numeral l.int.val l.int.2.1 (l.fracText ++ l.exponentText)
    ⟨⟨[]⟩, 0, -1⟩ empty ((le_digitsFrom _ l.fracDigits).trans_lt fits)
  change f.value = digitsFrom 0 l.int.val at value
  unfold fracText fracDigits at *
  cases part : l.frac with
  | none =>
    rw [part] at scanned
    exact ⟨f, _, -1, valid, value, scanned.trans (scanDigits_exponentText _), rfl⟩
  | some frac =>
    rw [part] at fits scanned
    simp only [Option.map_some, Option.getD_some] at fits scanned ⊢
    obtain ⟨f', valid', value', scanned'⟩ := @scanDigits_numeral frac.val frac.2.1 l.exponentText
      ⟨f, 0 + (l.int.val.filter Char.isDigit).length, (0 + (l.int.val.filter Char.isDigit).length : Nat)⟩ valid
      (by rw [value]; exact fits)
    refine ⟨f', _, _, valid', by rw [value', value], scanned.trans (Eq.trans ?_ (scanned'.trans
      (scanDigits_exponentText _))), ?_⟩
    · rw [List.cons_append, scanDigits, if_neg (by decide), if_pos rfl]
    have placed : ((0 + (l.int.val.filter Char.isDigit).length : Nat) : Int) ≠ -1 := by omega
    show (if ((0 + (l.int.val.filter Char.isDigit).length : Nat) : Int) ≠ -1 then _ else _) = _
    rw [if_pos placed]
    push_cast
    ring

/-- `From_String` converts the digits and the exponent of the last one. -/
theorem fromString_eq (fits : l.Fits) (fuel : Nat) :
    fromString fuel l.text = (toFloat64 fuel l.neg (ofNat l.digits) 10 l.exp).mapError .fcvt := by
  obtain ⟨f, nbr, point, valid, value, scanned, count⟩ := scanDigits_text fits.digits
  obtain ⟨signed, nonempty⟩ := scanSign_numeral l.sign l.int.2 (l.fracText ++ l.exponentText)
  have small := fits.written
  have low := fits.exp
  have exponent : (if point ≠ -1 then wrapInteger (l.writtenExponent - (nbr - point)) else l.writtenExponent) =
      l.exp := by
    unfold exp at low ⊢
    rw [abs_lt] at small
    by_cases placed : point ≠ -1
    · rw [if_pos placed] at count ⊢
      rw [count, wrapInteger_eq low (by omega)]
    · rw [if_neg placed] at count ⊢
      omega
  unfold fromString text
  rw [signed, if_neg nonempty, scanned]
  show (readExponent _ >>= _) = _
  rw [readExponent_eq small]
  show (toFloat64 fuel l.neg f 10 (if point ≠ -1 then wrapInteger (l.writtenExponent - (nbr - point)) else
    l.writtenExponent)).mapError FromStringError.fcvt = _
  rw [exponent, ← value, ← valid.eq_ofNat]

/-- Neither the product nor the quotient is rounded to another number. -/
def Rounded (l : DecimalLiteral) : Prop :=
  if 0 ≤ l.exp then ¬Bad (ofNat (l.digits * 10 ^ l.exp.toNat)) else ¬Lost l.magnitude

theorem reads_of_toFloat64 (fits : l.Fits) {fuel : Nat} {run : Except FcvtError UInt64}
    (converted : toFloat64 fuel l.neg (ofNat l.digits) 10 l.exp = run.map some) {word : UInt64} :
    fromString fuel l.text = .ok (some word) ↔ run = .ok word := by
  rw [fromString_eq fits, converted]
  cases run with
  | error _ => exact ⟨nofun, nofun⟩
  | ok a =>
    show Except.ok (some a) = Except.ok (some word) ↔ _
    rw [Except.ok.injEq, Except.ok.injEq, Option.some.injEq]

theorem magnitude_eq_zero : l.magnitude = 0 ↔ l.digits = 0 := by
  unfold magnitude scaled
  have power : ((10 : Nat) : ℚ) ^ l.exp ≠ 0 := by positivity
  rw [mul_eq_zero, or_iff_left power, Nat.cast_eq_zero]

theorem magnitude_nonneg : 0 ≤ l.magnitude := by
  unfold magnitude scaled
  positivity

theorem magnitude_of_nonneg (nonneg : 0 ≤ l.exp) : l.magnitude = (l.digits * 10 ^ l.exp.toNat : Nat) := by
  have natural : l.exp = (l.exp.toNat : Int) := by omega
  unfold magnitude scaled
  rw [natural, zpow_natCast, ← natural]
  push_cast
  rfl

theorem digits_valid (fits : l.Fits) : (ofNat l.digits).Valid ∧ (ofNat l.digits).value = l.digits := by
  obtain ⟨f, -, -, valid, value, -⟩ := scanDigits_text fits.digits
  rw [← value, ← valid.eq_ofNat]
  exact ⟨valid, rfl⟩

variable {fuel : Nat}

theorem reads_zero (fits : l.Fits) (zero : l.digits = 0) {word : UInt64} :
    fromString fuel l.text = .ok (some word) ↔ pack 0 0 l.neg = .ok word := by
  refine reads_of_toFloat64 fits ?_
  have none : (ofNat l.digits).n = 0 := by rw [zero]; rfl
  unfold toFloat64
  rw [if_pos none]
  cases pack 0 0 l.neg <;> rfl

theorem reads_product (fits : l.Fits) (some' : l.digits ≠ 0) (nonneg : 0 ≤ l.exp) (fuel : Nat) :
    (¬l.Rounded → ¬∃ word, fromString fuel l.text = .ok (some word) ∧ FloatOf l.magnitude l.neg word) ∧
      (l.Rounded → ∃ word y, fromString fuel l.text = .ok (some word) ∧ signBit word = l.neg ∧
        NearestDown binary64 l.magnitude y ∧ Encodes word y) := by
  obtain ⟨validD, valueD⟩ := digits_valid fits
  have positive := Nat.pos_of_ne_zero some'
  have capacity := fits.capacity.resolve_left some'
  rw [← valueD] at positive capacity
  obtain ⟨valid, value, converted⟩ := toFloat64_product validD positive (by decide) (by decide) nonneg capacity
  rw [valueD] at valid value converted positive
  have reads := fun word => @reads_of_toFloat64 l fits fuel _ (converted fuel l.neg) word
  have number : l.magnitude = (ofNat (l.digits * 10 ^ l.exp.toNat)).value := by
    rw [value]
    exact magnitude_of_nonneg nonneg
  have some'' : 0 < (ofNat (l.digits * 10 ^ l.exp.toNat)).value := by
    rw [value]
    exact Nat.mul_pos positive (Nat.pow_pos (by decide))
  obtain ⟨bad, good⟩ := toFp_packs valid some'' l.neg
  unfold Rounded
  rw [if_pos nonneg, not_not, number]
  simp only [reads]
  exact ⟨bad, good⟩

theorem reads_quotient (fits : l.Fits) (some' : l.digits ≠ 0) (negative : l.exp < 0) (enough : 65 ≤ fuel) :
    ∃ m e, HasBits 53 (UInt64.toNat m) ∧ NearestUp (floats 53) l.magnitude (m.toNat * 2 ^ e) ∧
      ∀ word, fromString fuel l.text = .ok (some word) ↔ pack m e l.neg = .ok word := by
  obtain ⟨validD, valueD⟩ := digits_valid fits
  have positive := Nat.pos_of_ne_zero some'
  have capacity := fits.capacity.resolve_left some'
  rw [← valueD] at positive capacity
  obtain ⟨m, e, bits, up, converted⟩ := toFloat64_quotient validD positive (by decide) (by decide) negative
    capacity enough l.neg
  rw [valueD] at up
  exact ⟨m, e, bits, up, fun word => reads_of_toFloat64 fits converted⟩

theorem mem_binary64_of_pow {k : Int} (least : -1022 ≤ k) : (2 : ℚ) ^ k ∈ binary64 := by
  refine ⟨2 ^ 52, k - 52, by decide, by omega, ?_⟩
  rw [Nat.cast_pow, Nat.cast_ofNat, ← zpow_natCast, ← zpow_add₀ (by norm_num)]
  congr 1
  omega

/-- The two ways of rounding give the same word unless the number is a tie that is not infinite. -/
theorem words_eq_iff {x y y' : ℚ} {word word' : UInt64} (down : NearestDown binary64 x y)
    (up : NearestUp binary64 x y') (encodes : Encodes word y) (encodes' : Encodes word' y')
    (sign : signBit word = signBit word') : word = word' ↔ ¬(Tie binary64 x ∧ x < 2 ^ 1024) := by
  have order : y ≤ y' := down.le up.nearest
  rw [tie_iff down up]
  constructor
  · rintro rfl ⟨different, finite⟩
    have less : y < y' := lt_of_le_of_ne order different
    -- The lower number is not above the number that is rounded.
    have below : y ≤ x := by
      by_contra above
      have near := down.nearest.2 y' up.1
      have near' := up.nearest.2 y down.1
      rw [abs_sub_comm x y, abs_sub_comm x y', abs_of_pos (by linarith), abs_of_pos (by linarith)] at near'
      linarith
    unfold Encodes at encodes encodes'
    rw [encodes, if_pos (below.trans_lt finite)] at encodes'
    by_cases small : y' < 2 ^ 1024
    · rw [if_pos small, Magnitude.finite.injEq] at encodes'
      exact different encodes'
    · rw [if_neg small] at encodes'
      cases encodes'
  · intro plain
    rcases eq_or_ne y y' with rfl | different
    · exact encodes.unique encodes' sign
    have large : (2 : ℚ) ^ 1024 ≤ x := not_lt.mp fun finite => plain ⟨different, finite⟩
    have reached : (2 : ℚ) ^ 1024 ≤ y := by
      have power := mem_binary64_of_pow (show (-1022 : Int) ≤ 1024 by decide)
      rw [zpow_ofNat] at power
      generalize (2 : ℚ) ^ 1024 = bound at power large ⊢
      by_contra less
      have near := down.nearest.2 bound power
      rw [abs_of_nonneg (by linarith), abs_of_nonneg (by linarith)] at near
      linarith
    have infinite : Encodes word y' := by
      unfold Encodes at encodes ⊢
      rw [encodes, if_neg (not_lt.mpr reached), if_neg (not_lt.mpr (reached.trans order))]
    exact infinite.unique encodes' sign

/-- Two literals of one number agree: the sign of 0 is the same, both are rounded to a nearest number, and to the same
one of two: where one is a product and the other a quotient it is not a tie, unless it is infinite anyway. -/
structure Agrees (s t : DecimalLiteral) : Prop where
  sign : s.magnitude = 0 → s.neg = t.neg
  left : s.Rounded
  right : t.Rounded
  tie : ¬(0 ≤ s.exp ↔ 0 ≤ t.exp) → ¬(Tie binary64 s.magnitude ∧ s.magnitude < 2 ^ 1024)

variable {s t : DecimalLiteral}

theorem magnitude_of_number (same : s.number = t.number) :
    s.magnitude = t.magnitude ∧ (s.magnitude ≠ 0 → s.neg = t.neg) := by
  have nonneg := @magnitude_nonneg s
  have nonneg' := @magnitude_nonneg t
  unfold number at same
  cases left : s.neg <;> cases right : t.neg <;> rw [left, right] at same <;>
    simp only [if_true, Bool.false_eq_true, if_false] at same
  · exact ⟨same, fun _ => rfl⟩
  · exact ⟨by linarith, fun some' => absurd (by linarith) some'⟩
  · exact ⟨by linarith, fun some' => absurd (by linarith) some'⟩
  · exact ⟨neg_injective same, fun _ => rfl⟩

theorem rounded_zero (zero : l.digits = 0) : l.Rounded := by
  unfold Rounded
  by_cases nonneg : 0 ≤ l.exp
  · rw [if_pos nonneg, zero, Nat.zero_mul]
    exact fun bad => absurd bad.1.1 (by decide)
  · rw [if_neg nonneg, magnitude_eq_zero.mpr zero]
    have less : (2 : ℚ) ^ (-1129 : Int) < 2 ^ (-1075 : Int) := zpow_lt_zpow_right₀ (by norm_num) (by decide)
    exact fun lost => absurd lost.1 (by linarith)

theorem not_tie_zero : ¬Tie binary64 0 := by
  have inside : (0 : ℚ) ∈ binary64 := ⟨0, -1074, by decide, le_refl _, by simp⟩
  have zero : ∀ {y : ℚ}, Nearest binary64 0 y → y = 0 := by
    intro y nearest
    have near := nearest.2 0 inside
    rw [sub_zero, abs_zero, zero_sub, abs_neg] at near
    exact abs_nonpos_iff.mp near
  rintro ⟨y, z, different, nearY, nearZ⟩
  exact different ((zero nearY).trans (zero nearZ).symm)

theorem mixed_iff (fitsS : s.Fits) (fitsT : t.Fits) (same : s.magnitude = t.magnitude)
    (sign : s.neg = t.neg) (some' : s.magnitude ≠ 0) (nonneg : 0 ≤ s.exp) (negative : t.exp < 0)
    (enough : 65 ≤ fuel) (left : s.Rounded) :
    (∃ word, fromString fuel s.text = .ok (some word) ∧ fromString fuel t.text = .ok (some word) ∧
      FloatOf s.magnitude s.neg word) ↔ ¬(Tie binary64 s.magnitude ∧ s.magnitude < 2 ^ 1024) := by
  have digitsS : s.digits ≠ 0 := fun zero => some' (magnitude_eq_zero.mpr zero)
  have digitsT : t.digits ≠ 0 := fun zero => some' (same.trans (magnitude_eq_zero.mpr zero))
  obtain ⟨word, y, readS, signS, down, encodes⟩ := (reads_product fitsS digitsS nonneg fuel).2 left
  obtain ⟨m, e, bits, up, reads⟩ := reads_quotient fitsT digitsT negative enough
  rw [← same] at up
  have number := magnitude_of_nonneg nonneg
  have positive : 0 < s.digits * 10 ^ s.exp.toNat := Nat.mul_pos (Nat.pos_of_ne_zero digitsS) (Nat.pow_pos (by decide))
  have normal := normal_of_nearest positive bits (number ▸ up.nearest)
  obtain ⟨word', packed, signT, encodes'⟩ := pack_normal bits normal t.neg
  have above : 0 < s.magnitude := lt_of_le_of_ne magnitude_nonneg some'.symm
  have up' : NearestUp binary64 s.magnitude (m.toNat * 2 ^ e) :=
    up.mono (mem_binary64 bits normal) (boundedFloats_part (by decide) above up.nearest)
  rw [← words_eq_iff down up' encodes encodes' (signS.trans (sign.trans signT.symm))]
  constructor
  · rintro ⟨w, readW, readW', -⟩
    rw [readS, Except.ok.injEq, Option.some.injEq] at readW
    rw [reads, packed, Except.ok.injEq] at readW'
    rw [readW, readW']
  · rintro rfl
    exact ⟨word, readS, (reads word).mpr packed, signS, y, down.nearest, encodes⟩

theorem exists_reads_iff (fits : l.Fits) (some' : l.magnitude ≠ 0) (enough : 65 ≤ fuel) :
    (∃ word, fromString fuel l.text = .ok (some word) ∧ FloatOf l.magnitude l.neg word) ↔ l.Rounded := by
  have digits : l.digits ≠ 0 := fun zero => some' (magnitude_eq_zero.mpr zero)
  rcases lt_or_ge l.exp 0 with negative | nonneg
  · obtain ⟨m, e, bits, up, reads⟩ := reads_quotient fits digits negative enough
    obtain ⟨word, packed, floatOf⟩ := pack_up_iff bits (lt_of_le_of_ne magnitude_nonneg some'.symm) up l.neg
    unfold Rounded
    rw [if_neg (by omega), ← floatOf]
    constructor
    · rintro ⟨word', read, is⟩
      rw [reads, packed, Except.ok.injEq] at read
      rwa [read]
    · exact fun is => ⟨word, (reads word).mpr packed, is⟩
  · obtain ⟨bad, good⟩ := reads_product fits digits nonneg fuel
    constructor
    · exact fun returned => by_contra fun lost => bad lost returned
    · intro rounded
      obtain ⟨word, y, read, sign, down, encodes⟩ := good rounded
      exact ⟨word, read, sign, y, down.nearest, encodes⟩

/-- Two products, or two quotients. -/
theorem alike (fitsS : s.Fits) (fitsT : t.Fits) (same : s.magnitude = t.magnitude)
    (sign : s.neg = t.neg) (some' : s.magnitude ≠ 0) (kind : 0 ≤ s.exp ↔ 0 ≤ t.exp) (enough : 65 ≤ fuel)
    (left : s.Rounded) (right : t.Rounded) :
    ∃ word, fromString fuel s.text = .ok (some word) ∧ fromString fuel t.text = .ok (some word) ∧
      FloatOf s.magnitude s.neg word := by
  have digitsS : s.digits ≠ 0 := fun zero => some' (magnitude_eq_zero.mpr zero)
  have digitsT : t.digits ≠ 0 := fun zero => some' (same.trans (magnitude_eq_zero.mpr zero))
  rcases lt_or_ge s.exp 0 with negative | nonneg
  · obtain ⟨word, readS, floatOf⟩ := (exists_reads_iff fitsS some' enough).mpr left
    obtain ⟨m, e, bits, up, reads⟩ := reads_quotient fitsS digitsS negative enough
    obtain ⟨m', e', bits', up', reads'⟩ := reads_quotient fitsT digitsT (by omega) enough
    rw [← same] at up'
    obtain ⟨significand, exponent⟩ := bits.unique bits' (up.unique up')
    refine ⟨word, readS, ?_, floatOf⟩
    rw [reads', ← UInt64.toNat_inj.mp significand, ← exponent, ← sign]
    exact (reads word).mp readS
  · obtain ⟨word, y, readS, signS, down, encodes⟩ := (reads_product fitsS digitsS nonneg fuel).2 left
    obtain ⟨word', y', readT, signT, down', encodes'⟩ := (reads_product fitsT digitsT (kind.mp nonneg) fuel).2 right
    rw [← same] at down'
    obtain rfl := down.unique down'
    obtain rfl := encodes.unique encodes' (signS.trans (sign.trans signT.symm))
    exact ⟨word, readS, readT, signS, y, down.nearest, encodes⟩

/-- Two texts of one number are read as the same word, that of a nearest number, just when they agree. -/
theorem fromString_agree_iff {s t : DecimalLiteral} (fitsS : s.Fits) (fitsT : t.Fits) (same : s.number = t.number)
    {fuel : Nat} (enough : 65 ≤ fuel) :
    (∃ word, fromString fuel s.text = .ok (some word) ∧ fromString fuel t.text = .ok (some word) ∧
      FloatOf s.magnitude s.neg word) ↔ Agrees s t := by
  obtain ⟨magnitudes, signs⟩ := magnitude_of_number same
  by_cases zero : s.magnitude = 0
  · have digitsS := magnitude_eq_zero.mp zero
    have digitsT := magnitude_eq_zero.mp (magnitudes.symm.trans zero)
    simp only [reads_zero fitsS digitsS, reads_zero fitsT digitsT]
    obtain ⟨word, packed, sign, encodes⟩ := pack_zero s.neg
    constructor
    · rintro ⟨word', left, right, is⟩
      obtain ⟨other, packed', sign', -⟩ := pack_zero t.neg
      rw [packed', Except.ok.injEq] at right
      have signs' : s.neg = t.neg := is.1.symm.trans (right ▸ sign')
      exact ⟨fun _ => signs', rounded_zero digitsS, rounded_zero digitsT, fun _ tie => not_tie_zero (zero ▸ tie.1)⟩
    · intro agrees
      refine ⟨word, packed, agrees.sign zero ▸ packed, sign, 0, ?_, encodes⟩
      rw [zero]
      exact nearest_zero (le_refl 0) (by positivity)
  have sign := signs zero
  have zero' : t.magnitude ≠ 0 := magnitudes ▸ zero
  constructor
  · rintro ⟨word, readS, readT, floatOf⟩
    have left := (exists_reads_iff fitsS zero enough).mp ⟨word, readS, floatOf⟩
    have right := (exists_reads_iff fitsT zero' enough).mp ⟨word, readT, magnitudes ▸ sign ▸ floatOf⟩
    refine ⟨fun is => absurd is zero, left, right, fun mixed => ?_⟩
    rcases lt_or_ge s.exp 0 with negative | nonneg
    · have nonneg' : 0 ≤ t.exp := by omega
      have ties := (mixed_iff fitsT fitsS magnitudes.symm sign.symm zero' nonneg' negative enough right).mp
        ⟨word, readT, readS, magnitudes ▸ sign ▸ floatOf⟩
      rwa [← magnitudes] at ties
    · exact (mixed_iff fitsS fitsT magnitudes sign zero nonneg (by omega) enough left).mp
        ⟨word, readS, readT, floatOf⟩
  · intro agrees
    by_cases kind : 0 ≤ s.exp ↔ 0 ≤ t.exp
    · exact alike fitsS fitsT magnitudes sign zero kind enough agrees.left agrees.right
    have plain := agrees.tie kind
    rcases lt_or_ge s.exp 0 with negative | nonneg
    · have nonneg' : 0 ≤ t.exp := by omega
      rw [magnitudes] at plain
      obtain ⟨word, readT, readS, floatOf⟩ :=
        (mixed_iff fitsT fitsS magnitudes.symm sign.symm zero' nonneg' negative enough agrees.right).mpr plain
      exact ⟨word, readS, readT, magnitudes.symm ▸ sign.symm ▸ floatOf⟩
    · exact (mixed_iff fitsS fitsT magnitudes sign zero nonneg (by omega) enough agrees.left).mpr plain

/-- 15 and 1.5E1. -/
theorem fromString_agree_fifteen :
    let s : DecimalLiteral := ⟨none, ⟨['1', '5'], by decide⟩, none, none⟩
    let t : DecimalLiteral := ⟨none, ⟨['1'], by decide⟩, some ⟨['5'], by decide⟩,
      some (true, none, ⟨['1'], by decide⟩)⟩
    ∃ word, fromString 65 s.text = .ok (some word) ∧ fromString 65 t.text = .ok (some word) ∧
      FloatOf s.magnitude s.neg word := by
  intro s t
  have room : Capacity 15 10 0 := by
    show 15 * 10 ^ 0 < (2 ^ 32) ^ 36
    decide
  have fitsS : s.Fits := ⟨by decide, by decide, by decide, Or.inr room⟩
  have fitsT : t.Fits := ⟨by decide, by decide, by decide, Or.inr room⟩
  have plain : ¬Bad (ofNat (15 * 10 ^ 0)) := fun bad => absurd bad.1.1 (by decide +kernel)
  exact (@fromString_agree_iff s t fitsS fitsT rfl 65 (le_refl 65)).mpr
    ⟨fun _ => rfl, plain, plain, fun mixed => absurd (by decide +kernel) mixed⟩

/-- With a zero after the point a tie is rounded up, and without it down. -/
theorem fromString_trailing_zero :
    let s : DecimalLiteral :=
      ⟨none, ⟨['9', '0', '0', '7', '1', '9', '9', '2', '5', '4', '7', '4', '0', '9', '9', '3'], by decide⟩, none, none⟩
    let t : DecimalLiteral := { s with frac := some ⟨['0'], by decide⟩ }
    s.Fits ∧ t.Fits ∧ s.number = t.number ∧
      fromString 65 s.text = .ok (some 0x4340000000000000) ∧ fromString 65 t.text = .ok (some 0x4340000000000001) ∧
      ¬∃ word, fromString 65 s.text = .ok (some word) ∧ fromString 65 t.text = .ok (some word) ∧
        FloatOf s.magnitude s.neg word := by
  intro s t
  have left : fromString 65 s.text = .ok (some 0x4340000000000000) := by decide +kernel
  have right : fromString 65 t.text = .ok (some 0x4340000000000001) := by decide +kernel
  refine ⟨⟨by decide +kernel, by decide +kernel, by decide +kernel, Or.inr (by decide +kernel)⟩,
    ⟨by decide +kernel, by decide +kernel, by decide +kernel, Or.inr (by decide +kernel)⟩, ?_, left, right, ?_⟩
  · show scaled 9007199254740993 10 0 = scaled 90071992547409930 10 (-1)
    unfold scaled
    norm_num
  rintro ⟨word, readS, readT, -⟩
  rw [left, Except.ok.injEq, Option.some.injEq] at readS
  rw [right, Except.ok.injEq, Option.some.injEq, ← readS] at readT
  exact absurd readT (by decide)

end DecimalLiteral

open DecimalLiteral

variable {v : UInt64} {x : ℚ}

theorem finite_binary64 (finite : magnitude v = .finite x) : x ∈ binary64 ∧ x < 2 ^ 1024 := by
  have bits : fractionField v < 2 ^ 52 := Nat.mod_lt _ (by decide)
  have field : exponentField v < 2 ^ 11 := Nat.mod_lt _ (by decide)
  obtain ⟨m, e, small, least, most, rfl⟩ : ∃ (m : Nat) (e : Int), m < 2 ^ 53 ∧ -1074 ≤ e ∧ e ≤ 971 ∧ x = m * 2 ^ e := by
    unfold magnitude at finite
    split at finite
    · split at finite <;> cases finite
    split at finite
    all_goals rw [Magnitude.finite.injEq] at finite
    · exact ⟨_, -1074, by omega, le_refl _, by decide, finite.symm⟩
    · exact ⟨_, _, by omega, by omega, by omega, finite.symm⟩
  refine ⟨⟨m, e, small, least, rfl⟩, ?_⟩
  calc (m : ℚ) * 2 ^ e < 2 ^ 53 * 2 ^ (971 : Int) :=
        mul_lt_mul (by exact_mod_cast small) (zpow_le_zpow_right₀ (by norm_num) most) (by positivity) (by positivity)
    _ = 2 ^ 1024 := by rw [zpow_ofNat, ← pow_add]

/-- A literal for what `To_String` returns is read as the same word just when it is rounded to a nearest number. -/
def ReadsBack (fuel : Nat) (v : UInt64) : Prop :=
  ∃ ds k, (∀ last, toString fuel last v = .ok (some
      ⟨⟨last, (ds.map Output.digitChar).take last, ds.length⟩, true, signBit v, some k⟩)) ∧
    ∀ l : DecimalLiteral, l.Fits → l.neg = signBit v → l.magnitude = fraction 10 ds * 10 ^ k →
      (fromString fuel l.text = .ok (some v) ↔ l.Rounded)

/-- Every finite number that is not 0 is read back. -/
theorem toString_reads_back (finite : magnitude v = .finite x) (nonzero : x ≠ 0) {fuel : Nat} (enough : 65 ≤ fuel) :
    ReadsBack fuel v := by
  obtain ⟨ds, k, converts⟩ := toString_converts finite nonzero
  obtain ⟨member, below⟩ := finite_binary64 finite
  have encodes : Encodes v x := by
    unfold Encodes
    rw [if_pos below, finite]
  refine ⟨ds, k, fun last => converts.returns fuel last (by omega), fun l fits sign denotes => ?_⟩
  have rounds := converts.rounds
  rw [← denotes] at rounds
  have nearest : Nearest binary64 l.magnitude x := by
    refine ⟨member, fun y inside => ?_⟩
    by_cases same : y = x
    · rw [same]
    · exact (rounds y inside same).le
  have some' : l.magnitude ≠ 0 := by
    intro zero
    have near := rounds 0 ⟨0, -1074, by decide, le_refl _, by simp⟩ nonzero.symm
    rw [zero, sub_self, abs_zero] at near
    exact (abs_nonneg _).not_gt near
  rw [← exists_reads_iff fits some' enough]
  constructor
  · exact fun read => ⟨v, read, sign.symm, x, nearest, encodes⟩
  · rintro ⟨word, read, sign', y, nearest', encodes'⟩
    -- No other number is as near.
    have same : y = x := by_contra fun other => (nearest'.2 x member).not_gt (rounds y nearest'.1 other)
    rw [same] at encodes'
    rw [read, encodes'.unique encodes (sign'.trans sign)]

theorem toString_reads_back_quarter : ReadsBack 65 0x3fd0000000000000 :=
  toString_reads_back magnitude_quarter (by norm_num) (le_refl 65)

end Ghdl.Fcvt
