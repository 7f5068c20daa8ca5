import Ghdl.Numbers.Literals
import Ghdl.Vhdl.ScanLiteralPaths

/-!
# The values of scanned literals

Each part of a literal is read by its loop up to the next part, without a message: the digits go to the number of many
digits, whose capacity bounds the literals. So the scan ends behind the literal, and an integer has its value when
that fits in 64 bits with a sign.
-/

namespace Ghdl.Vhdl

open Fcvt Bignum Fallible Numbers

variable {s : Scanner} {fuel : Nat} {int rest cs : List Char} {c d : Char} {res : Bignum} {scale : Int}

theorem isDigit_iff : c.isDigit = true ↔ below 10 c = true := by
  have range : c.isDigit = true ↔ 48 ≤ c.toNat ∧ c.toNat ≤ 57 := by
    unfold Char.isDigit
    simp [UInt32.le_iff_toNat_le]
  rw [range]
  constructor
  · rintro ⟨low, high⟩
    refine below_iff.mpr ⟨c.toNat - 48, ?_, by omega⟩
    unfold extendedDigit
    rw [if_pos ⟨low, high⟩]
  · intro small
    obtain ⟨d, value, small⟩ := below_iff.mp small
    unfold extendedDigit at value
    split at value
    case isTrue range => exact range
    split at value
    case isTrue range =>
      have low : 97 ≤ c.toNat := range.1
      rw [Option.some.injEq] at value
      omega
    split at value
    case isTrue range =>
      have low : 65 ≤ c.toNat := range.1
      rw [Option.some.injEq] at value
      omega
    cases value

theorem extendedDigit_digit (digit : c.isDigit = true) : extendedDigit c = some (digitPos c) := by
  have range : '0' ≤ c ∧ c ≤ '9' := by
    unfold Char.isDigit at digit
    exact (by simpa using digit : 48 ≤ c.val ∧ c.val ≤ 57)
  unfold extendedDigit
  rw [if_pos range]
  rfl

theorem extended_eq (c : Char) : extended c = extendedDigit c := by
  unfold extended extendedDigit
  by_cases decimal : '0' ≤ c ∧ c ≤ '9'
  · rw [if_pos decimal, if_pos decimal]
    rfl
  rw [if_neg decimal, if_neg decimal]
  by_cases upper : 'A' ≤ c ∧ c ≤ 'F'
  · have low : 65 ≤ c.toNat := upper.1
    have high : c.toNat ≤ 70 := upper.2
    have notLower : ¬('a' ≤ c ∧ c ≤ 'f') := by
      rintro ⟨low', _⟩
      have low' : 97 ≤ c.toNat := low'
      omega
    rw [if_pos upper, if_neg notLower, if_pos upper]
    exact congrArg some (by show c.toNat - 65 + 10 = c.toNat - 55; omega)
  · rw [if_neg upper]
    by_cases lower : 'a' ≤ c ∧ c ≤ 'f'
    · have low : 97 ≤ c.toNat := lower.1
      rw [if_pos lower, if_pos lower]
      exact congrArg some (by show c.toNat - 97 + 10 = c.toNat - 87; omega)
    · rw [if_neg lower, if_neg lower, if_neg upper]

theorem peek_cons (source : s.source = c :: cs) : s.peek = c := by
  unfold Scanner.peek
  rw [source]
  rfl

theorem next_cons (source : s.source = c :: cs) : s.next = { s with source := cs } := by
  unfold Scanner.next
  rw [source]
  rfl

/-- Behind an integer there is no digit and no underscore, also at the end of the source. -/
theorem stops_peek (source : s.source = rest) (stops : Stops (below 10) rest) :
    s.peek.isDigit = false ∧ s.peek ≠ '_' := by
  cases rest with
  | nil =>
    unfold Scanner.peek
    rw [source]
    decide
  | cons c cs =>
    obtain ⟨other, underscore⟩ := stops c rfl
    rw [peek_cons source, Bool.eq_false_iff]
    refine ⟨fun digit => ?_, underscore⟩
    rw [isDigit_iff.mp digit] at other
    cases other

theorem skipUnderscores_one (msg : String) (source : s.source = '_' :: c :: cs) (other : c ≠ '_') :
    skipUnderscores msg s.source.length s = { s with source := c :: cs } := by
  have isNext := next_cons source
  have isPeek : s.next.peek = c := by
    rw [isNext]
    rfl
  rw [source, List.length_cons]
  unfold skipUnderscores
  rw [isPeek, if_pos other, isNext]

theorem digitsOf_cons {n : Nat} (value : extendedDigit c = some n) : digitsOf (c :: cs) = n :: digitsOf cs :=
  List.filterMap_cons_some value

theorem digitsOf_underscore (cs : List Char) : digitsOf ('_' :: cs) = digitsOf cs := List.filterMap_cons_none rfl

theorem afterDigit_other (other : s.peek ≠ '_') : afterDigit s = s := if_neg other

theorem afterDigit_underscore (source : s.source = '_' :: c :: cs) (digit : c.isDigit = true) :
    afterDigit s = { s with source := c :: cs } := by
  have other : c ≠ '_' := by
    rintro rfl
    exact absurd digit (by decide)
  unfold afterDigit
  rw [if_pos (peek_cons source)]
  dsimp only
  rw [skipUnderscores_one _ source other]
  exact if_pos digit

/-- One digit of `Scan_Integer`. -/
theorem scanInteger_digit (digit : c.isDigit = true) (source : s.source = c :: cs) (valid : res.Valid)
    (fits : res.value * 10 + digitPos c < (2 ^ 32) ^ last) :
    ∃ res', res'.Valid ∧ res'.value = res.value * 10 + digitPos c ∧ ∀ fuel scale, scanInteger (fuel + 1) res scale s =
        if (afterDigit { s with source := cs }).peek.isDigit then
          scanInteger fuel res' (scale + 1) (afterDigit { s with source := cs })
        else .ok (res', scale + 1, afterDigit { s with source := cs }) := by
  have small := digitPos_lt digit
  obtain ⟨res', computed, valid', value⟩ := @mulInt_spec res valid 10 (digitPos c) (by decide) (by decide) (by omega) fits
  refine ⟨res', valid', value, fun fuel scale => ?_⟩
  conv_lhs => unfold scanInteger
  rw [peek_cons source, computed, next_cons source]
  rfl

/-- The number of digits, and the place behind them, that `Scan_Integer` returns. -/
def Reads (ds : List Nat) (rest : List Char) (fuel : Nat) (s : Scanner) : Prop :=
  ∀ (res : Bignum) (scale : Int), res.Valid → res.value * 10 ^ ds.length + numeral 10 ds < (2 ^ 32) ^ last →
    ∃ res', res'.Valid ∧ res'.value = res.value * 10 ^ ds.length + numeral 10 ds ∧
      scanInteger fuel res scale s = .ok (res', scale + ds.length, { s with source := rest })

theorem Reads.cons {ds : List Nat} {s' : Scanner} (digit : c.isDigit = true) (source : s.source = c :: cs)
    (after : afterDigit { s with source := cs } = s') (same : { s' with source := rest } = { s with source := rest })
    (next : s'.peek.isDigit = true) (reads : Reads ds rest fuel s') : Reads (digitPos c :: ds) rest (fuel + 1) s := by
  intro res scale valid fits
  have split : res.value * 10 ^ (digitPos c :: ds).length + numeral 10 (digitPos c :: ds) =
      (res.value * 10 + digitPos c) * 10 ^ ds.length + numeral 10 ds := by
    rw [numeral_cons, List.length_cons, Nat.pow_succ]
    ring
  have first : res.value * 10 + digitPos c ≤ (res.value * 10 + digitPos c) * 10 ^ ds.length :=
    Nat.le_mul_of_pos_right _ (Nat.pow_pos (by decide))
  rw [split] at fits ⊢
  obtain ⟨res', valid', value', step⟩ := scanInteger_digit digit source valid
    (Nat.lt_of_le_of_lt (Nat.le_trans first (Nat.le_add_right _ _)) fits)
  obtain ⟨final, validF, valueF, read⟩ := reads res' (scale + 1) valid' (by rw [value']; exact fits)
  refine ⟨final, validF, by rw [valueF, value'], ?_⟩
  rw [step fuel scale, after, if_pos next, read, same, List.length_cons]
  refine congrArg Except.ok (congrArg (Prod.mk final) (congrArg (fun n => (n, { s with source := rest })) ?_))
  push_cast
  ring

/-- `Scan_Integer` reads an integer. -/
theorem scanInteger_int (digits : Underscored (below 10) int) (stops : Stops (below 10) rest)
    (source : s.source = int ++ rest) (enough : int.length ≤ fuel) : Reads (digitsOf int) rest fuel s := by
  induction digits generalizing fuel s with
  | @single c digit =>
    intro res scale valid fits
    have isDigit := isDigit_iff.mpr digit
    have isOne : digitsOf [c] = [digitPos c] := digitsOf_cons (extendedDigit_digit isDigit)
    have value : numeral 10 [digitPos c] = digitPos c := by
      rw [numeral_cons]
      simp
    obtain ⟨fuel, rfl⟩ := fuel_succ enough
    rw [isOne, value, List.length_singleton, Nat.pow_one] at fits ⊢
    have source' : s.source = c :: rest := source
    obtain ⟨res', valid', value', step⟩ := scanInteger_digit isDigit source' valid fits
    obtain ⟨noDigit, noUnderscore⟩ := @stops_peek { s with source := rest } rest rfl stops
    refine ⟨res', valid', value', ?_⟩
    rw [step fuel scale, afterDigit_other noUnderscore, noDigit]
    rfl
  | @digit c cs digit inner ih =>
    have isDigit := isDigit_iff.mpr digit
    obtain ⟨d, ds, rfl, next⟩ := inner.head
    have nextDigit := isDigit_iff.mpr next
    obtain ⟨fuel, rfl⟩ := fuel_succ enough
    have source' : s.source = c :: (d :: ds ++ rest) := source
    have noUnderscore : Scanner.peek { s with source := d :: ds ++ rest } ≠ '_' := by
      show d ≠ '_'
      rintro rfl
      exact absurd nextDigit (by decide)
    rw [digitsOf_cons (extendedDigit_digit isDigit)]
    exact Reads.cons isDigit source' (afterDigit_other noUnderscore) rfl nextDigit
      (ih rfl (Nat.le_of_succ_le_succ enough))
  | @underscore c cs digit inner ih =>
    have isDigit := isDigit_iff.mpr digit
    obtain ⟨d, ds, rfl, next⟩ := inner.head
    have nextDigit := isDigit_iff.mpr next
    obtain ⟨fuel, rfl⟩ := fuel_succ enough
    have source' : s.source = c :: ('_' :: d :: ds ++ rest) := source
    rw [digitsOf_cons (extendedDigit_digit isDigit), digitsOf_underscore]
    exact Reads.cons isDigit source'
      (@afterDigit_underscore { s with source := '_' :: d :: ds ++ rest } (ds ++ rest) d rfl nextDigit) rfl nextDigit
      (ih rfl (Nat.le_trans (Nat.le_succ _) (Nat.le_of_succ_le_succ enough)))

section Based

variable {numberSign : Char} {base : Nat} {b : Based}

/-- The loop over the digits of a based literal, behind a digit. -/
def basedNext (numberSign : Char) (base fuel : Nat) (b : Based) : Except ScanExit Based :=
  if b.s.peek = '_' then
    basedLoop numberSign base fuel
      { b with s := skipUnderscores "double underscore in based integer" b.s.source.length b.s }
  else if b.s.peek = '.' then
    if b.hasDot then basedLoop numberSign base fuel { b with s := (b.s.error "double dot ignored").next }
    else basedLoop numberSign base fuel { b with scale := 0, hasDot := true, s := b.s.next }
  else if b.s.peek = numberSign then .ok { b with s := b.s.next }
  else if b.s.peek = '#' ∨ b.s.peek = ':' then .ok { b with s := b.s.error "bad number sign replacement character" }
  else basedLoop numberSign base fuel b

theorem basedLoop_digit {n : Nat} (value : extendedDigit c = some n) (small : n < base) (high : base ≤ 16)
    (source : b.s.source = c :: cs) (valid : b.res.Valid) (fits : b.res.value * base + n < (2 ^ 32) ^ last) :
    ∃ res', res'.Valid ∧ res'.value = b.res.value * base + n ∧ ∀ fuel, basedLoop numberSign base (fuel + 1) b =
        basedNext numberSign base fuel
          { res := res', scale := b.scale + 1, hasDot := b.hasDot, s := { b.s with source := cs } } := by
  obtain ⟨res', computed, valid', isValue⟩ := @mulInt_spec b.res valid base n (by omega) (by omega) (by omega) fits
  refine ⟨res', valid', isValue, fun fuel => ?_⟩
  unfold basedLoop
  rw [peek_cons source, extended_eq, value]
  dsimp only
  rw [if_neg (Nat.not_le.mpr small)]
  dsimp only
  rw [next_cons source, computed]
  rfl

/-- The number of the digits, up to the character behind them. -/
def ReadsBased (numberSign : Char) (base : Nat) (ds : List Nat) (length : Nat) (rest : List Char) (fuel : Nat)
    (hasDot : Bool) (s : Scanner) : Prop :=
  ∀ (res : Bignum) (scale : Int), res.Valid → res.value * base ^ ds.length + numeral base ds < (2 ^ 32) ^ last →
    ∃ res' fuel', res'.Valid ∧ res'.value = res.value * base ^ ds.length + numeral base ds ∧ fuel ≤ fuel' + length ∧
      basedLoop numberSign base fuel { res, scale, hasDot, s } =
        basedNext numberSign base fuel' { res := res', scale := scale + ds.length, hasDot, s := { s with source := rest } }

theorem ReadsBased.cons {ds : List Nat} {n length : Nat} {s' : Scanner} {hasDot : Bool} (value : extendedDigit c = some n)
    (small : n < base) (high : base ≤ 16) (source : s.source = c :: cs)
    (after : ∀ (res : Bignum) (scale : Int), basedNext numberSign base fuel
      { res, scale, hasDot, s := { s with source := cs } } = basedLoop numberSign base fuel { res, scale, hasDot, s := s' })
    (same : { s' with source := rest } = { s with source := rest }) {length' : Nat} (longer : length + 1 ≤ length')
    (reads : ReadsBased numberSign base ds length rest fuel hasDot s') :
    ReadsBased numberSign base (n :: ds) length' rest (fuel + 1) hasDot s := by
  intro res scale valid fits
  have split : res.value * base ^ (n :: ds).length + numeral base (n :: ds) =
      (res.value * base + n) * base ^ ds.length + numeral base ds := by
    rw [numeral_cons, List.length_cons, Nat.pow_succ]
    ring
  have first : res.value * base + n ≤ (res.value * base + n) * base ^ ds.length :=
    Nat.le_mul_of_pos_right _ (Nat.pow_pos (by omega))
  rw [split] at fits ⊢
  obtain ⟨res', valid', value', step⟩ := @basedLoop_digit cs c numberSign base { res, scale, hasDot, s } n value small high
    source valid (Nat.lt_of_le_of_lt (Nat.le_trans first (Nat.le_add_right _ _)) fits)
  obtain ⟨final, fuel', validF, valueF, less, read⟩ := reads res' (scale + 1) valid' (by rw [value']; exact fits)
  refine ⟨final, fuel', validF, by rw [valueF, value'], by omega, ?_⟩
  have count : scale + 1 + (ds.length : Int) = scale + (n :: ds).length := by
    rw [List.length_cons]
    push_cast
    ring
  rw [step fuel]
  show basedNext numberSign base fuel { res := res', scale := scale + 1, hasDot, s := { s with source := cs } } = _
  rw [after, read, same, count]

theorem basedLoop_int {hasDot : Bool} (digits : Underscored (below base) int) (high : base ≤ 16)
    (isSign : numberSign = '#' ∨ numberSign = ':') (source : s.source = int ++ rest) (enough : int.length ≤ fuel) :
    ReadsBased numberSign base (digitsOf int) int.length rest fuel hasDot s := by
  induction digits generalizing fuel s with
  | @single c digit =>
    intro res scale valid fits
    obtain ⟨n, value, small⟩ := below_iff.mp digit
    obtain ⟨fuel, rfl⟩ := fuel_succ enough
    have isOne : digitsOf [c] = [n] := digitsOf_cons value
    have isValue : numeral base [n] = n := by
      rw [numeral_cons]
      simp
    rw [isOne, isValue, List.length_singleton, Nat.pow_one] at fits ⊢
    obtain ⟨res', valid', value', step⟩ := @basedLoop_digit rest c numberSign base { res, scale, hasDot, s } n value small
      high source valid fits
    exact ⟨res', fuel, valid', value', Nat.le_refl _, step fuel⟩
  | @digit c cs digit inner ih =>
    obtain ⟨n, value, small⟩ := below_iff.mp digit
    obtain ⟨d, ds, rfl, next⟩ := inner.head
    obtain ⟨fuel, rfl⟩ := fuel_succ enough
    have source' : s.source = c :: (d :: ds ++ rest) := source
    have other : ∀ e, below base e = false → d ≠ e := by
      rintro e none rfl
      rw [next] at none
      cases none
    obtain ⟨point, hash, colon, underscore⟩ := Literal.below_point base
    have notSign : d ≠ numberSign := by
      rcases isSign with rfl | rfl
      · exact other _ hash
      · exact other _ colon
    rw [digitsOf_cons value]
    have reads : ReadsBased numberSign base (digitsOf (d :: ds)) (d :: ds).length rest fuel hasDot
        { s with source := d :: ds ++ rest } := ih rfl (Nat.le_of_succ_le_succ enough)
    have after : ∀ (res : Bignum) (scale : Int), basedNext numberSign base fuel
        { res, scale, hasDot, s := { s with source := d :: ds ++ rest } } =
          basedLoop numberSign base fuel { res, scale, hasDot, s := { s with source := d :: ds ++ rest } } := by
      intro res scale
      show (if d = '_' then _ else if d = '.' then _ else if d = numberSign then _
        else if d = '#' ∨ d = ':' then _ else _) = _
      rw [if_neg (other _ underscore), if_neg (other _ point), if_neg notSign,
        if_neg (not_or.mpr ⟨other _ hash, other _ colon⟩)]
    exact ReadsBased.cons value small high source' after rfl (Nat.le_refl _) reads
  | @underscore c cs digit inner ih =>
    obtain ⟨n, value, small⟩ := below_iff.mp digit
    obtain ⟨d, ds, rfl, next⟩ := inner.head
    obtain ⟨fuel, rfl⟩ := fuel_succ enough
    have source' : s.source = c :: ('_' :: d :: ds ++ rest) := source
    have other : d ≠ '_' := by
      rintro rfl
      rw [(Literal.below_point base).2.2.2] at next
      cases next
    rw [digitsOf_cons value, digitsOf_underscore]
    have reads : ReadsBased numberSign base (digitsOf (d :: ds)) (d :: ds).length rest fuel hasDot
        { s with source := d :: ds ++ rest } := ih rfl (Nat.le_trans (Nat.le_succ _) (Nat.le_of_succ_le_succ enough))
    have after : ∀ (res : Bignum) (scale : Int), basedNext numberSign base fuel
        { res, scale, hasDot, s := { s with source := '_' :: d :: ds ++ rest } } =
          basedLoop numberSign base fuel { res, scale, hasDot, s := { s with source := d :: ds ++ rest } } := by
      intro res scale
      have skipped := @skipUnderscores_one { s with source := '_' :: d :: ds ++ rest } (ds ++ rest) d
        "double underscore in based integer" rfl other
      show basedLoop numberSign base fuel { res, scale, hasDot, s := skipUnderscores _ _ _ } = _
      rw [skipped]
      rfl
    exact ReadsBased.cons value small high source' after rfl (Nat.le_succ _) reads

end Based

theorem integer_ok {n : Nat} (small : n ≤ 2147483647) : integer s n = .ok n := if_pos small

theorem numeral_snoc (exp n : Nat) (ds : List Nat) :
    exp * 10 ^ (n :: ds).length + numeral 10 (n :: ds) = (exp * 10 + n) * 10 ^ ds.length + numeral 10 ds := by
  rw [numeral_cons, List.length_cons, Nat.pow_succ]
  ring

theorem le_pow_add (n : Nat) (ds : List Nat) {limit : Nat} (fits : n * 10 ^ ds.length + numeral 10 ds ≤ limit) :
    n ≤ limit := by
  have factor : n ≤ n * 10 ^ ds.length := Nat.le_mul_of_pos_right _ (Nat.pow_pos (by decide))
  omega

theorem exponentLoop_int {exp : Nat} (digits : Underscored (below 10) int) (stops : Stops (below 10) rest)
    (source : s.source = int ++ rest) (enough : int.length ≤ fuel)
    (fits : exp * 10 ^ (digitsOf int).length + numeral 10 (digitsOf int) ≤ 2147483647) : exponentLoop fuel exp s =
      .ok (exp * 10 ^ (digitsOf int).length + numeral 10 (digitsOf int), { s with source := rest }) := by
  induction digits generalizing fuel s exp with
  | @single c digit =>
    have isDigit := isDigit_iff.mpr digit
    have isOne : digitsOf [c] = [digitPos c] := digitsOf_cons (extendedDigit_digit isDigit)
    have isValue : numeral 10 [digitPos c] = digitPos c := by
      rw [numeral_cons]
      simp
    obtain ⟨fuel, rfl⟩ := fuel_succ enough
    have source' : s.source = c :: rest := source
    obtain ⟨noDigit, noUnderscore⟩ := @stops_peek { s with source := rest } rest rfl stops
    rw [isOne, isValue, List.length_singleton, Nat.pow_one] at fits ⊢
    unfold exponentLoop
    rw [peek_cons source', integer_ok fits, next_cons source']
    show (if Scanner.peek { s with source := rest } = '_' then _ else if _ then _ else _ : Except ScanExit _) = _
    rw [if_neg noUnderscore, noDigit]
    rfl
  | @digit c cs digit inner ih =>
    have isDigit := isDigit_iff.mpr digit
    obtain ⟨d, ds, rfl, next⟩ := inner.head
    have nextDigit := isDigit_iff.mpr next
    obtain ⟨fuel, rfl⟩ := fuel_succ enough
    have source' : s.source = c :: (d :: ds ++ rest) := source
    have noUnderscore : d ≠ '_' := by
      rintro rfl
      exact absurd nextDigit (by decide)
    rw [digitsOf_cons (extendedDigit_digit isDigit), numeral_snoc] at fits ⊢
    have first := le_pow_add (exp * 10 + digitPos c) (digitsOf (d :: ds)) fits
    unfold exponentLoop
    rw [peek_cons source', integer_ok first, next_cons source']
    show (if d = '_' then _ else if d.isDigit then _ else _ : Except ScanExit _) = _
    rw [if_neg noUnderscore, if_pos nextDigit]
    exact ih rfl (Nat.le_of_succ_le_succ enough) fits
  | @underscore c cs digit inner ih =>
    have isDigit := isDigit_iff.mpr digit
    obtain ⟨d, ds, rfl, next⟩ := inner.head
    have nextDigit := isDigit_iff.mpr next
    obtain ⟨fuel, rfl⟩ := fuel_succ enough
    have source' : s.source = c :: ('_' :: d :: ds ++ rest) := source
    have noUnderscore : d ≠ '_' := by
      rintro rfl
      exact absurd nextDigit (by decide)
    rw [digitsOf_cons (extendedDigit_digit isDigit), digitsOf_underscore, numeral_snoc] at fits ⊢
    have first := le_pow_add (exp * 10 + digitPos c) (digitsOf (d :: ds)) fits
    have skipped := @skipUnderscores_one { s with source := '_' :: d :: ds ++ rest } (ds ++ rest) d
      "double underscore not allowed in integer" rfl noUnderscore
    unfold exponentLoop
    rw [peek_cons source', integer_ok first, next_cons source']
    show (if (skipUnderscores _ _ _).peek.isDigit then exponentLoop fuel _ (skipUnderscores _ _ _) else _ :
      Except ScanExit _) = _
    rw [skipped]
    show (if d.isDigit then exponentLoop fuel _ { s with source := d :: ds ++ rest } else _ : Except ScanExit _) = _
    rw [if_pos nextDigit]
    exact ih rfl (Nat.le_trans (Nat.le_succ _) (Nat.le_of_succ_le_succ enough)) fits

section Literals

variable {l : Literal}

/-- An abstract literal of the language: the exponent of an integer literal has no minus sign. -/
structure IsAbstract (l : Literal) : Prop where
  wellFormed : l.WellFormed
  positive : l.fraction = none → ∀ e ∈ l.exponent, e.sign ≠ some '-'

/-- The digits behind the point. -/
def fractionDigits (l : Literal) : List Nat := digitsOf (l.fraction.getD [])

/-- The number of all digits of a literal. -/
def mantissa (l : Literal) : Nat := numeral l.radix (digitsOf l.int ++ fractionDigits l)

/-- The exponent with its sign. -/
def exponentValue (l : Literal) : Int :=
  l.exponent.elim 0 fun e => if e.sign = some '-' then -(e.magnitude : Int) else e.magnitude

/-- The literal ends in front of the rest of the source: that does not go on with its last integer, with an exponent
when there is none, or with a point or a base when it is a decimal integer. -/
structure EndsAt (l : Literal) (rest : List Char) : Prop where
  integer : l.base = none ∨ l.exponent ≠ none → Stops (below 10) rest
  exponent : l.exponent = none → ∀ c ∈ rest.head?, c ≠ 'e' ∧ c ≠ 'E'
  decimal : l.base = none → l.fraction = none → l.exponent = none →
    ∀ c cs, rest = c :: cs → c ≠ '.' ∧ c ≠ '#' ∧ (c = ':' → ∀ d ∈ cs.head?, extendedDigit d = none)

/-- The digits of an exponent, behind its sign. -/
def exponentDigits (p : Bool × Scanner) : Except ScanExit (Int × Scanner) :=
  if p.2.peek.isDigit then
    exponentLoop p.2.source.length 0 p.2 >>= fun q => .ok (if p.1 then -(q.1 : Int) else q.1, q.2)
  else .ok (0, p.2.error "digit expected after exponent")

theorem scanExponent_eq {hasDot : Bool} (letter : s.peek = 'E' ∨ s.peek = 'e') :
    scanExponent hasDot s = exponentDigits (exponentSign hasDot s.next) := if_pos letter

theorem scanExponent_spec {hasDot : Bool} (wellFormed : ∀ e ∈ l.exponent, e.WellFormed) (ends : EndsAt l rest)
    (positive : hasDot = false → ∀ e ∈ l.exponent, e.sign ≠ some '-')
    (fits : ∀ e ∈ l.exponent, e.magnitude ≤ 2147483647) (source : s.source = l.exponentText ++ rest) :
    scanExponent hasDot s = .ok (exponentValue l, { s with source := rest }) := by
  unfold Literal.exponentText at source
  unfold exponentValue
  cases isExponent : l.exponent with
  | none =>
    rw [isExponent] at source
    have source' : s.source = rest := source
    have other : ¬(s.peek = 'E' ∨ s.peek = 'e') := by
      cases rest with
      | nil =>
        unfold Scanner.peek
        rw [source']
        decide
      | cons c cs =>
        rw [peek_cons source']
        have both := ends.exponent isExponent c rfl
        exact not_or.mpr ⟨both.2, both.1⟩
    unfold scanExponent
    rw [if_neg other, ← source']
    rfl
  | some e =>
    rw [isExponent] at source
    obtain ⟨letter, sign, int⟩ := e
    have isWellFormed := wellFormed _ isExponent
    have stops := ends.integer (Or.inr (by rw [isExponent]; exact nofun))
    have source' : s.source = letter :: (sign.toList ++ int ++ rest) := source
    have isLetter : letter = 'E' ∨ letter = 'e' := isWellFormed.letter.symm
    have small : numeral 10 (digitsOf int) ≤ 2147483647 := fits _ isExponent
    obtain ⟨d, ds, isInt, digit⟩ := isWellFormed.int.head
    have isInt : int = d :: ds := isInt
    have isDigit := isDigit_iff.mpr digit
    have loop : ∀ s : Scanner, s.source = int ++ rest →
        exponentLoop s.source.length 0 s = .ok (numeral 10 (digitsOf int), { s with source := rest }) := by
      intro s source
      have read := @exponentLoop_int s s.source.length int rest 0 isWellFormed.int stops source
        (by rw [source, List.length_append]; exact Nat.le_add_right _ _) (by rw [Nat.zero_mul, Nat.zero_add]; exact small)
      rw [Nat.zero_mul, Nat.zero_add] at read
      exact read
    have peeks : ∀ s : Scanner, s.source = int ++ rest → s.peek = d := by
      intro s source
      rw [isInt] at source
      exact peek_cons source
    have digits : ∀ expNeg, exponentDigits (expNeg, { s with source := int ++ rest }) =
        .ok (if expNeg then -(numeral 10 (digitsOf int) : Int) else (numeral 10 (digitsOf int) : Int),
          { s with source := rest }) := by
      intro expNeg
      have read := loop { s with source := int ++ rest } rfl
      unfold exponentDigits
      rw [peeks { s with source := int ++ rest } rfl, if_pos isDigit]
      dsimp only at read ⊢
      rw [read]
      rfl
    rw [scanExponent_eq (by rw [peek_cons source']; exact isLetter), next_cons source']
    cases sign with
    | none =>
      have notPlus : d ≠ '+' := by rintro rfl; exact absurd isDigit (by decide)
      have notMinus : d ≠ '-' := by rintro rfl; exact absurd isDigit (by decide)
      have signs : exponentSign hasDot { s with source := int ++ rest } = (false, { s with source := int ++ rest }) := by
        unfold exponentSign
        rw [peeks { s with source := int ++ rest } rfl, if_neg notPlus, if_neg notMinus]
      show exponentDigits (exponentSign hasDot { s with source := int ++ rest }) = _
      rw [signs, digits]
      rfl
    | some sign =>
      have signs : exponentSign hasDot { s with source := sign :: (int ++ rest) } =
          (decide (sign = '-'), { s with source := int ++ rest }) := by
        unfold exponentSign
        rcases isWellFormed.sign sign rfl with rfl | rfl
        · rfl
        have dotted : hasDot = true := by
          by_contra none
          exact positive (Bool.not_eq_true _ ▸ none) _ isExponent rfl
        rw [dotted]
        rfl
      show exponentDigits (exponentSign hasDot { s with source := sign :: (int ++ rest) }) = _
      rw [signs, digits]
      rcases isWellFormed.sign sign rfl with rfl | rfl
      · rfl
      · rfl

/-- What a scan does with the parts of a literal. -/
def literalOf (fuel : Nat) (l : Literal) (res : Bignum) (s : Scanner) : Except ScanExit Scanner :=
  if l.fraction.isSome then realLiteral fuel res l.radix (exponentValue l - (fractionDigits l).length) s
  else integerLiteral res l.radix (exponentValue l) s

theorem scanEnd_spec (fuel : Nat) (isAbstract : IsAbstract l) (ends : EndsAt l rest)
    (fits : ∀ e ∈ l.exponent, e.magnitude ≤ 2147483647) (source : s.source = l.exponentText ++ rest)
    (counts : l.fraction.isSome = true → scale = (fractionDigits l).length) :
    scanEnd fuel l.radix { res, scale, hasDot := l.fraction.isSome, s } = literalOf fuel l res { s with source := rest } := by
  have exponent := @scanExponent_spec s rest l l.fraction.isSome isAbstract.wellFormed.lexical.exponent ends
    (fun plain => isAbstract.positive (Option.isNone_iff_eq_none.mp (by rw [← Option.not_isSome, plain]; rfl))) fits source
  unfold scanEnd literalOf
  dsimp only
  rw [exponent]
  show (if l.fraction.isSome = true then realLiteral fuel res l.radix (exponentValue l - scale) _ else _) = _
  by_cases dotted : l.fraction.isSome = true
  · rw [if_pos dotted, if_pos dotted, counts dotted]
  · rw [if_neg dotted, if_neg dotted]

theorem stops_exponentText (isAbstract : IsAbstract l) (ends : EndsAt l rest) (last : l.base = none ∨ l.exponent ≠ none) :
    Stops (below 10) (l.exponentText ++ rest) := by
  cases isExponent : l.exponent with
  | none =>
    unfold Literal.exponentText
    rw [isExponent]
    exact ends.integer (last.imp id fun some' => absurd isExponent some')
  | some e =>
    have stops := Literal.stops_exponent isAbstract.wellFormed.lexical.exponent
    unfold Literal.exponentText at stops ⊢
    rw [isExponent] at stops ⊢
    exact fun c inside => stops c inside

theorem not_continued (isAbstract : IsAbstract l) (ends : EndsAt l rest) (decimal : l.base = none)
    (plain : l.fraction = none) (source : s.source = l.exponentText ++ rest) :
    s.peek ≠ '.' ∧ startsBased s = false := by
  have atLetter : ∀ c cs, s.source = c :: cs → (c = 'e' ∨ c = 'E') → s.peek ≠ '.' ∧ startsBased s = false := by
    rintro c cs source letter
    unfold startsBased
    rw [peek_cons source]
    rcases letter with rfl | rfl
    all_goals exact ⟨by decide, rfl⟩
  cases isExponent : l.exponent with
  | some e =>
    unfold Literal.exponentText at source
    rw [isExponent] at source
    exact atLetter e.letter _ source (isAbstract.wellFormed.lexical.exponent e isExponent).letter
  | none =>
    unfold Literal.exponentText at source
    rw [isExponent] at source
    have source' : s.source = rest := source
    cases rest with
    | nil =>
      unfold startsBased Scanner.peek
      rw [source']
      exact ⟨by decide, rfl⟩
    | cons c cs =>
      obtain ⟨point, hash, colon⟩ := ends.decimal decimal plain isExponent c cs rfl
      unfold startsBased
      rw [peek_cons source', next_cons source']
      refine ⟨point, ?_⟩
      rw [decide_eq_false hash, Bool.false_or]
      by_cases isColon : c = ':'
      · have notDigit : extended (Scanner.peek { s with source := cs }) = none := by
          rw [extended_eq]
          cases cs with
          | nil => rfl
          | cons d ds => exact colon isColon d rfl
        rw [notDigit]
        exact Bool.and_false _
      · rw [decide_eq_false isColon]
        rfl

theorem numeral_groups (base : Nat) (ds ds' : List Nat) :
    numeral base ds * base ^ ds'.length + numeral base ds' = numeral base (ds ++ ds') := (numeral_append ds ds').symm

theorem scanRest_decimal (fuel : Nat) (isAbstract : IsAbstract l) (ends : EndsAt l rest) (decimal : l.base = none)
    (fits : mantissa l < (2 ^ 32) ^ last) (exponent : ∀ e ∈ l.exponent, e.magnitude ≤ 2147483647)
    (source : s.source = l.fractionText ++ l.exponentText ++ rest) (valid : res.Valid)
    (value : res.value = numeral 10 (digitsOf l.int)) : ∃ res', res'.Valid ∧ res'.value = mantissa l ∧
      scanRest fuel res s = literalOf fuel l res' { s with source := rest } := by
  have ten : l.radix = 10 := by
    unfold Literal.radix
    rw [decimal]
    rfl
  have isMantissa : mantissa l = numeral 10 (digitsOf l.int ++ fractionDigits l) := by
    unfold mantissa
    rw [ten]
  unfold Literal.fractionText at source
  cases isFraction : l.fraction with
  | none =>
    rw [isFraction] at source
    have source' : s.source = l.exponentText ++ rest := source
    have noDigits : fractionDigits l = [] := by
      unfold fractionDigits
      rw [isFraction]
      rfl
    obtain ⟨noPoint, notBased⟩ := not_continued isAbstract ends decimal isFraction source'
    have spec := @scanEnd_spec s rest res 0 l fuel isAbstract ends exponent source'
      (fun some' => by rw [isFraction] at some'; cases some')
    rw [ten, isFraction] at spec
    refine ⟨res, valid, by rw [value, isMantissa, noDigits, List.append_nil], ?_⟩
    unfold scanRest
    rw [if_neg noPoint, notBased, if_neg Bool.false_ne_true]
    exact spec
  | some f =>
    rw [isFraction] at source
    have source' : s.source = '.' :: (f ++ (l.exponentText ++ rest)) := by
      rw [source]
      show '.' :: f ++ l.exponentText ++ rest = _
      rw [List.append_assoc]
      rfl
    have digits : Underscored (below 10) f := by
      have lexical := isAbstract.wellFormed.lexical.fraction f isFraction
      rwa [ten] at lexical
    have isDigits : fractionDigits l = digitsOf f := by
      unfold fractionDigits
      rw [isFraction]
      rfl
    obtain ⟨d, ds, isText, digit⟩ := digits.head
    have isDigit : (Scanner.peek { s with source := f ++ (l.exponentText ++ rest) }).isDigit = true := by
      rw [isText]
      exact isDigit_iff.mpr digit
    have enough : f.length ≤ (f ++ (l.exponentText ++ rest)).length := by
      rw [List.length_append]
      exact Nat.le_add_right _ _
    have reads := @scanInteger_int { s with source := f ++ (l.exponentText ++ rest) } _ f (l.exponentText ++ rest) digits
      (stops_exponentText isAbstract ends (Or.inl decimal)) rfl enough
    rw [isMantissa, isDigits, ← numeral_groups, ← value] at fits
    obtain ⟨res', valid', value', read⟩ := reads res 0 valid fits
    have spec := @scanEnd_spec { s with source := l.exponentText ++ rest } rest res' (0 + (digitsOf f).length) l fuel
      isAbstract ends exponent rfl (fun _ => by rw [isDigits, Int.zero_add])
    rw [ten, isFraction] at spec
    refine ⟨res', valid', by rw [value', value, isMantissa, isDigits, numeral_groups], ?_⟩
    unfold scanRest
    rw [peek_cons source', if_pos rfl, next_cons source', if_pos isDigit]
    dsimp only at read ⊢
    rw [read]
    exact spec

theorem scanBase_spec {radix : Nat} (valid : res.Valid) (value : res.value = radix) (low : 2 ≤ radix) (high : radix ≤ 16) :
    scanBase res s = (radix, s) := by
  have spec := toInt_spec valid
  rw [value, if_pos (by omega)] at spec
  obtain ⟨number, ok⟩ := spec
  have notHigh : ¬(16 : UInt64) < (toInt res).1 := by
    rw [UInt64.lt_iff_toNat_lt, number]
    show ¬16 < radix
    omega
  have notLow : ¬(toInt res).1 < (2 : UInt64) := by
    rw [UInt64.lt_iff_toNat_lt, number]
    show ¬radix < 2
    omega
  unfold scanBase
  show (if ¬(toInt res).2 = true ∨ 16 < (toInt res).1 then _ else if (toInt res).1 < 2 then _ else _) = _
  rw [if_neg (by rw [ok]; simpa using notHigh), if_neg notLow]
  exact congrArg (fun n => (n, s)) number

theorem scanRest_based (fuel : Nat) (isAbstract : IsAbstract l) (ends : EndsAt l rest) {base : List Char} {sep : Char}
    (based : l.base = some (base, sep)) (fits : mantissa l < (2 ^ 32) ^ last)
    (exponent : ∀ e ∈ l.exponent, e.magnitude ≤ 2147483647)
    (source : s.source = sep :: (l.int ++ (l.fractionText ++ sep :: (l.exponentText ++ rest)))) (valid : res.Valid)
    (value : res.value = l.radix) : ∃ res', res'.Valid ∧ res'.value = mantissa l ∧
      scanRest fuel res s = literalOf fuel l res' { s with source := rest } := by
  obtain ⟨low, high, lexical⟩ := isAbstract.wellFormed
  have isSep : sep = '#' ∨ sep = ':' := (lexical.base _ based).2
  obtain ⟨d, ds, isInt, digit⟩ := lexical.int.head
  have notPoint : sep ≠ '.' := by
    rcases isSep with rfl | rfl
    · decide
    · decide
  have starts : startsBased s = true := by
    unfold startsBased
    rw [peek_cons source, next_cons source]
    obtain ⟨n, isDigit, _⟩ := below_iff.mp digit
    have next : extended (Scanner.peek { s with
        source := l.int ++ (l.fractionText ++ sep :: (l.exponentText ++ rest)) }) = some n := by
      rw [isInt, extended_eq]
      exact isDigit
    rw [next]
    rcases isSep with rfl | rfl
    · rfl
    · rfl
  have open' : scanRest fuel res s = basedLoop sep l.radix
      (l.int ++ (l.fractionText ++ sep :: (l.exponentText ++ rest))).length
      { res := int 0, scale := 0, hasDot := false,
        s := { s with source := l.int ++ (l.fractionText ++ sep :: (l.exponentText ++ rest)) } } >>=
        scanEnd fuel l.radix := by
    unfold scanRest
    rw [peek_cons source, if_neg notPoint, if_pos starts, scanBase_spec valid value low high]
    dsimp only
    rw [next_cons source]
  obtain ⟨validZero, zero⟩ := @int_spec 0 (by decide)
  have enough : l.int.length ≤ (l.int ++ (l.fractionText ++ sep :: (l.exponentText ++ rest))).length := by
    rw [List.length_append]
    exact Nat.le_add_right _ _
  have reads := @basedLoop_int { s with source := l.int ++ (l.fractionText ++ sep :: (l.exponentText ++ rest)) } _ l.int
    (l.fractionText ++ sep :: (l.exponentText ++ rest)) sep l.radix false lexical.int high isSep rfl enough
  have split : mantissa l = numeral l.radix (digitsOf l.int) * l.radix ^ (fractionDigits l).length +
      numeral l.radix (fractionDigits l) := (numeral_groups _ _ _).symm
  have part : numeral l.radix (digitsOf l.int) ≤ mantissa l := by
    rw [split]
    exact Nat.le_trans (Nat.le_mul_of_pos_right _ (Nat.pow_pos (by omega))) (Nat.le_add_right _ _)
  obtain ⟨res', fuel', valid', value', less, read⟩ := reads (int 0) 0 validZero
    (by rw [zero, Nat.zero_mul, Nat.zero_add]; exact Nat.lt_of_le_of_lt part fits)
  rw [zero, Nat.zero_mul, Nat.zero_add] at value'
  rw [open', read]
  cases isFraction : l.fraction with
  | none =>
    have noFraction : l.fractionText = [] := by
      unfold Literal.fractionText
      rw [isFraction]
      rfl
    have noDigits : fractionDigits l = [] := by
      unfold fractionDigits
      rw [isFraction]
      rfl
    have spec := @scanEnd_spec { s with source := l.exponentText ++ rest } rest res' (0 + (digitsOf l.int).length) l fuel
      isAbstract ends exponent rfl (fun some' => by rw [isFraction] at some'; cases some')
    rw [isFraction] at spec
    refine ⟨res', valid', ?_, ?_⟩
    · unfold mantissa
      rw [value', noDigits, List.append_nil]
    rw [noFraction]
    unfold basedNext
    show ((if sep = '_' then _ else if sep = '.' then _ else if sep = sep then _ else _) >>= _) = _
    have notUnderscore : sep ≠ '_' := by
      rcases isSep with rfl | rfl
      · decide
      · decide
    rw [if_neg notUnderscore, if_neg notPoint, if_pos rfl]
    exact spec
  | some f =>
    have isText : l.fractionText = '.' :: f := by
      unfold Literal.fractionText
      rw [isFraction]
      rfl
    have isDigits : fractionDigits l = digitsOf f := by
      unfold fractionDigits
      rw [isFraction]
      rfl
    have dot : basedNext sep l.radix fuel'
        { res := res', scale := 0 + (digitsOf l.int).length, hasDot := false,
          s := { s with source := l.fractionText ++ sep :: (l.exponentText ++ rest) } } =
        basedLoop sep l.radix fuel'
          { res := res', scale := 0, hasDot := true, s := { s with source := f ++ sep :: (l.exponentText ++ rest) } } := by
      rw [isText]
      rfl
    have enough' : f.length ≤ fuel' := by
      rw [List.length_append, List.length_append, isText, List.length_cons] at less
      omega
    have reads' := @basedLoop_int { s with source := f ++ sep :: (l.exponentText ++ rest) } fuel' f
      (sep :: (l.exponentText ++ rest)) sep l.radix true (lexical.fraction f isFraction) high isSep rfl enough'
    rw [split, isDigits, ← value'] at fits
    obtain ⟨final, fuel'', validF, valueF, _, read'⟩ := reads' res' 0 valid' fits
    have spec := @scanEnd_spec { s with source := l.exponentText ++ rest } rest final (0 + (digitsOf f).length) l fuel
      isAbstract ends exponent rfl (fun _ => by rw [isDigits, Int.zero_add])
    rw [isFraction] at spec
    refine ⟨final, validF, ?_, ?_⟩
    · rw [valueF, value', split, isDigits]
    have dot' := dot
    dsimp only at dot' read' ⊢
    rw [dot', read']
    unfold basedNext
    show ((if sep = '_' then _ else if sep = '.' then _ else if sep = sep then _ else _) >>= _) = _
    have notUnderscore : sep ≠ '_' := by
      rcases isSep with rfl | rfl
      · decide
      · decide
    rw [if_neg notUnderscore, if_neg notPoint, if_pos rfl]
    exact spec

theorem scanLiteralBignum_spec (fuel : Nat) (isAbstract : IsAbstract l) (ends : EndsAt l rest)
    (fits : mantissa l < (2 ^ 32) ^ last) (exponent : ∀ e ∈ l.exponent, e.magnitude ≤ 2147483647)
    (source : s.source = l.text ++ rest) : ∃ res, res.Valid ∧ res.value = mantissa l ∧
      scanLiteralBignum fuel s = handled (literalOf fuel l res { s with source := rest }) := by
  have source' : s.source = l.first ++ (l.afterFirst ++ rest) := by rw [source, Literal.text_eq, List.append_assoc]
  have lexical := isAbstract.wellFormed.alphabet
  have stops : Stops (below 10) (l.afterFirst ++ rest) := by
    unfold Literal.afterFirst
    cases based : l.base with
    | none =>
      rw [List.append_assoc]
      exact Literal.stops_fraction fun _ => stops_exponentText isAbstract ends (Or.inl based)
    | some base => exact Literal.stops_separator (lexical.base base based).2
  obtain ⟨validZero, zero⟩ := @int_spec 0 (by decide)
  have enough : l.first.length ≤ s.source.length := by
    rw [source', List.length_append]
    exact Nat.le_add_right _ _
  have low := isAbstract.wellFormed.low
  have high := isAbstract.wellFormed.high
  have room : numeral 10 (digitsOf l.first) < (2 ^ 32) ^ last := by
    unfold Literal.first
    cases based : l.base with
    | none =>
      have ten : l.radix = 10 := by
        unfold Literal.radix
        rw [based]
        rfl
      have part : numeral 10 (digitsOf l.int) ≤ mantissa l := by
        unfold mantissa
        rw [ten, ← numeral_groups]
        exact Nat.le_trans (Nat.le_mul_of_pos_right _ (Nat.pow_pos (by decide))) (Nat.le_add_right _ _)
      exact Nat.lt_of_le_of_lt part fits
    | some base =>
      have isRadix : numeral 10 (digitsOf base.1) = l.radix := by
        unfold Literal.radix
        rw [based]
        rfl
      have large : 16 < (2 ^ 32) ^ last := by decide +kernel
      exact Nat.lt_of_le_of_lt (isRadix ▸ high) large
  obtain ⟨res, valid, value, read⟩ := scanInteger_int lexical.first stops source' enough (int 0) 0 validZero
    (by rw [zero, Nat.zero_mul, Nat.zero_add]; exact room)
  rw [zero, Nat.zero_mul, Nat.zero_add] at value
  have parts : ∃ res', res'.Valid ∧ res'.value = mantissa l ∧
      scanRest fuel res { s with source := l.afterFirst ++ rest } = literalOf fuel l res' { s with source := rest } := by
    unfold Literal.first at value
    unfold Literal.afterFirst
    cases based : l.base with
    | none =>
      rw [based] at value
      exact @scanRest_decimal { s with source := l.fractionText ++ l.exponentText ++ rest } rest res l fuel isAbstract ends
        based fits exponent rfl valid value
    | some base =>
      obtain ⟨base, sep⟩ := base
      rw [based] at value
      have isRadix : numeral 10 (digitsOf base) = l.radix := by
        unfold Literal.radix
        rw [based]
        rfl
      have split : sep :: (l.int ++ (l.fractionText ++ sep :: l.exponentText)) ++ rest =
          sep :: (l.int ++ (l.fractionText ++ sep :: (l.exponentText ++ rest))) := by simp
      dsimp only
      rw [split]
      exact @scanRest_based { s with source := sep :: (l.int ++ (l.fractionText ++ sep :: (l.exponentText ++ rest))) } rest
        res l fuel isAbstract ends base sep based fits exponent rfl valid (value.trans isRadix)
  obtain ⟨res', valid', value', ends'⟩ := parts
  refine ⟨res', valid', value', ?_⟩
  unfold scanLiteralBignum
  rw [read]
  show handled (scanRest fuel res { s with source := l.afterFirst ++ rest }) = _
  rw [ends']

/-- The capacity of the numbers of many digits, for an integer literal. -/
structure HasCapacity (l : Literal) : Prop where
  value : l.natValue < (2 ^ 32) ^ 36
  scale : l.radix ^ l.exponent.elim 0 Exponent.magnitude < (2 ^ 32) ^ 36

/-- The exponent of a literal with capacity is an `Integer`. -/
theorem HasCapacity.exponent (capacity : HasCapacity l) (low : 2 ≤ l.radix) :
    ∀ e ∈ l.exponent, e.magnitude ≤ 2147483647 := by
  intro e isExponent
  have scale := capacity.scale
  rw [show l.exponent = some e from isExponent] at scale
  have power : 2 ^ e.magnitude < 2 ^ (32 * 36) := by
    rw [Nat.pow_mul]
    exact Nat.lt_of_le_of_lt (Nat.pow_le_pow_left low _) scale
  have less : e.magnitude < 32 * 36 := (Nat.pow_lt_pow_iff_right Nat.one_lt_two).mp power
  omega

theorem scaleInteger_spec {n : Nat} {radix : Nat} (valid : res.Valid) (low : 2 ≤ radix) (high : radix ≤ 16)
    (value : res.value * radix ^ n < (2 ^ 32) ^ 36) (scale : radix ^ n < (2 ^ 32) ^ 36) :
    ∃ res', res'.Valid ∧ res'.value = res.value * radix ^ n ∧ scaleInteger res radix n s = .ok res' := by
  by_cases none : n = 0
  · subst none
    exact ⟨res, valid, by rw [Nat.pow_zero, Nat.mul_one], if_neg (not_not.mpr rfl)⟩
  have some' : (n : Int) ≠ 0 := by omega
  obtain ⟨factor, computed, validF, valueF⟩ := @pow_spec radix n (by omega) (by omega) scale
  have product : ∃ res', res.mul factor = .ok res' ∧ res'.Valid ∧ res'.value = res.value * factor.value := by
    by_cases zero : res.value = 0
    · have noDigits : res.n = 0 := by
        by_contra digits
        have positive := (value_pos valid.normal).mpr digits
        omega
      exact mul_spec (by rw [noDigits, Nat.zero_add]; exact validF.bounded)
    · exact mul_returns valid validF (Nat.pos_of_ne_zero zero) (by rw [valueF]; exact Nat.pow_pos (by omega))
        (by rw [valueF]; exact value)
  obtain ⟨res', computed', valid', value'⟩ := product
  refine ⟨res', valid', by rw [value', valueF], ?_⟩
  unfold scaleInteger
  rw [if_pos some', Int.toNat_natCast, computed]
  show checked s (res.mul factor) = _
  rw [computed']
  rfl

theorem mantissa_integer (plain : l.fraction = none) : mantissa l = numeral l.radix (digitsOf l.int) := by
  unfold mantissa fractionDigits
  rw [plain]
  exact congrArg (numeral l.radix) (List.append_nil _)

theorem integerLiteral_spec (isAbstract : IsAbstract l) (plain : l.fraction = none) (capacity : HasCapacity l)
    (valid : res.Valid) (value : res.value = mantissa l) :
    if l.natValue ≤ 2 ^ 63 - 1 then
      integerLiteral res l.radix (exponentValue l) s = .ok { s with token := some .integer, int64 := l.natValue }
    else ∃ v, integerLiteral res l.radix (exponentValue l) s =
      .ok { s with token := some .integer, int64 := v, messages := s.messages ++ ["literal beyond integer bounds"] } := by
  have positive : exponentValue l = (l.exponent.elim 0 Exponent.magnitude : Nat) := by
    unfold exponentValue
    cases isExponent : l.exponent with
    | none => rfl
    | some e => exact if_neg (isAbstract.positive plain e isExponent)
  have isValue : res.value * l.radix ^ l.exponent.elim 0 Exponent.magnitude = l.natValue := by
    rw [value, mantissa_integer plain]
    rfl
  obtain ⟨res', valid', value', scaled⟩ := @scaleInteger_spec { s with token := some .integer } res
    (l.exponent.elim 0 Exponent.magnitude) l.radix valid isAbstract.wellFormed.low isAbstract.wellFormed.high
    (by rw [isValue]; exact capacity.value) capacity.scale
  rw [isValue] at value'
  have spec := toInt_spec valid'
  rw [value'] at spec
  have run : integerLiteral res l.radix (exponentValue l) s =
      if 0x7fffffffffffffff < (toInt res').1 then
        .ok (Scanner.error { s with token := some .integer } "literal beyond integer bounds")
      else if (toInt res').2 then .ok { s with token := some .integer, int64 := (toInt res').1.toNat }
      else .ok (Scanner.error { s with token := some .integer, int64 := (toInt res').1.toNat }
        "literal beyond integer bounds") := by
    unfold integerLiteral
    dsimp only
    rw [positive, scaled]
    rfl
  rw [run]
  by_cases fits : l.natValue ≤ 2 ^ 63 - 1
  · rw [if_pos (by omega)] at spec
    have small : ¬(0x7fffffffffffffff : UInt64) < (toInt res').1 := by
      rw [UInt64.lt_iff_toNat_lt, spec.1]
      show ¬9223372036854775807 < l.natValue
      omega
    rw [if_pos fits, if_neg small, if_pos spec.2, spec.1]
  rw [if_neg fits]
  by_cases words : l.natValue < 2 ^ 64
  · rw [if_pos words] at spec
    have large : (0x7fffffffffffffff : UInt64) < (toInt res').1 := by
      rw [UInt64.lt_iff_toNat_lt, spec.1]
      show 9223372036854775807 < l.natValue
      omega
    rw [if_pos large]
    exact ⟨s.int64, rfl⟩
  · rw [if_neg words] at spec
    rw [spec, if_neg (show ¬(0x7fffffffffffffff : UInt64) < 0 by decide), if_neg Bool.false_ne_true]
    exact ⟨0, rfl⟩

theorem peek_text (isAbstract : IsAbstract l) (source : s.source = l.text ++ rest) : s.peek.isDigit = true := by
  obtain ⟨d, ds, isFirst, digit⟩ := isAbstract.wellFormed.alphabet.first.head
  have source' : s.source = d :: (ds ++ l.afterFirst ++ rest) := by
    rw [source, Literal.text_eq, isFirst]
    rfl
  rw [peek_cons source']
  exact isDigit_iff.mpr digit

end Literals

/-- A based literal with an exponent. -/
def basedExample : Literal where
  base := some (['1', '6'], '#')
  int := ['F', '_', 'f']
  fraction := none
  exponent := some ⟨'E', none, ['2']⟩

end Ghdl.Vhdl
