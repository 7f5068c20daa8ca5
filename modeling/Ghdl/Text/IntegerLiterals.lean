import Ghdl.Text.ValueIntegers

/-!
# The integer literals that have a value

The value of a text is that of its number where the text does not end with a lone sign, where a decimal literal and a based one without an exponent fits, where a based one that fits has no exponent, and where no base of
2 ** 64 or more is left with 2 to 16 when it wraps. Each of the other texts is a counterexample.
-/

namespace Ghdl.Text

open Ghdl.Numbers

variable {s s' : StringBase} {pos len : Nat} {t text : List Char} {sign sign' : Option Char} {l l' : Literal}

/-- The sign of a number. -/
def IsSign (sign : Option Char) : Prop := ∀ c ∈ sign, c = '+' ∨ c = '-'

/-- A number with its sign. -/
def signed (sign : Option Char) (n : Int) : Int := if sign = some '-' then -n else n

/-- The text is an optional sign and the integer literal of a number. -/
def IsNumber (t : List Char) (v : Int) : Prop :=
  ∃ sign l, IsSign sign ∧ Literal.WellFormed l ∧ l.IsInteger ∧ t = sign.toList ++ l.text ∧ v = signed sign l.natValue

/-- A text without the blanks around it. -/
def trim (text : List Char) : List Char :=
  (text.dropWhile isWhitespace).rdropWhile isWhitespace

/-- `'value` of a text is its number when that fits, whatever is behind the text. -/
structure ReadsNumbers (text : List Char) : Prop where
  value : ∀ s, At s 0 text → ∀ v, valueInteger .i64 s text.length = .ok v ↔
    IsNumber (trim text) v ∧ IntegerKind.i64.InRange v
  inside : ∀ s s', At s 0 text → At s' 0 text → valueInteger .i64 s text.length = valueInteger .i64 s' text.length

/-- A sign and nothing behind it, not even a blank. -/
def LoneSign (text : List Char) : Prop := ∃ before c, Blank before ∧ (c = '+' ∨ c = '-') ∧ text = before ++ [c]

/-- The texts, without the blanks around them, that are read wrongly. -/
inductive Misread : List Char → Prop
  | overflow {sign : Option Char} {l : Literal} (isSign : IsSign sign) (wellFormed : l.WellFormed)
      (integer : l.IsInteger) (plain : l.base = none ∨ l.exponent = none)
      (large : ¬IntegerKind.i64.InRange (signed sign l.natValue)) : Misread (sign.toList ++ l.text)
  | base {sign : Option Char} {l : Literal} (isSign : IsSign sign) (reads : Reads l) (large : 16 < l.radix) :
      Misread (sign.toList ++ l.text)
  | exponent {sign : Option Char} {l : Literal} (isSign : IsSign sign) (wellFormed : l.WellFormed)
      (integer : l.IsInteger) (based : l.base ≠ none) (scaled : l.exponent ≠ none)
      (fits : IntegerKind.i64.InRange (signed sign l.natValue)) : Misread (sign.toList ++ l.text)

theorem Reads.alphabet (reads : Reads l) : l.Lexical (below l.alphabet) := by
  have le : readBase l ≤ l.alphabet := by
    unfold Literal.alphabet
    cases isBase : l.base with
    | none =>
      rw [readBase_decimal isBase]
      exact Nat.le_refl 10
    | some base =>
      have high := reads.high
      show readBase l ≤ 16
      unfold readBase
      omega
  have mono : ∀ c, below (readBase l) c = true → below l.alphabet c = true := fun c => below_mono le
  exact ⟨reads.lexical.base, reads.lexical.int.mono mono,
    fun f isFraction => (reads.lexical.fraction f isFraction).mono mono, reads.lexical.exponent⟩

theorem readBase_small (small : l.radix ≤ 16) : wrap 64 l.radix = l.radix ∧ readBase l = l.radix := by
  have same : wrap 64 l.radix = l.radix := wrap_64 (by omega) (by omega)
  unfold readBase
  rw [same]
  exact ⟨rfl, Int.toNat_natCast _⟩

theorem Reads.wellFormed (reads : Reads l) (small : l.radix ≤ 16) : l.WellFormed ∧ l.IsInteger := by
  obtain ⟨same, isBase⟩ := readBase_small small
  have low := reads.low
  have lexical := reads.lexical
  rw [same] at low
  rw [isBase] at lexical
  exact ⟨⟨by omega, small, lexical⟩, reads.fraction, reads.positive⟩

theorem reads_of_wellFormed (wellFormed : l.WellFormed) (integer : l.IsInteger)
    (plain : l.base = none ∨ l.exponent = none) : Reads l := by
  have low := wellFormed.low
  have high := wellFormed.high
  obtain ⟨same, isBase⟩ := readBase_small high
  refine ⟨integer.fraction, integer.exponent, by rw [same]; omega, by rw [same]; omega, ?_, plain⟩
  rw [isBase]
  exact wellFormed.lexical

theorem finish_readValue (wellFormed : l.WellFormed) (fits : IntegerKind.i64.InRange (signed sign l.natValue)) :
    finish (decide (sign = some '-')) (readValue l) = signed sign l.natValue := by
  have magnitude : l.natValue ≤ 2 ^ 63 := by
    obtain ⟨low, high⟩ := fits
    unfold signed at low high
    by_cases minus : sign = some '-'
    · rw [if_pos minus] at low
      omega
    · rw [if_neg minus] at high
      omega
  obtain ⟨same, isBase⟩ := readBase_small wellFormed.high
  have value : readValue l = wrap 64 (-(l.natValue : Int)) := by
    by_cases zero : numeral l.radix (digitsOf l.int) = 0
    · unfold readValue Literal.natValue
      rw [isBase, zero, Nat.zero_mul]
      exact scale_zero 32 _ _
    have small : l.exponent.elim 0 Exponent.magnitude < 64 := by
      by_contra large
      have power : 2 ^ 64 ≤ l.radix ^ l.exponent.elim 0 Exponent.magnitude :=
        Nat.le_trans (Nat.pow_le_pow_right (by omega) (Nat.le_of_not_lt large)) (Nat.pow_le_pow_left wellFormed.low _)
      have product := Nat.mul_le_mul (Nat.one_le_iff_ne_zero.mpr zero) power
      change 1 * 2 ^ 64 ≤ l.natValue at product
      omega
    have exponent : wrap 32 (l.exponent.elim 0 Exponent.magnitude : Nat) =
        (l.exponent.elim 0 Exponent.magnitude : Nat) := wrap_32 (by omega) (by omega)
    unfold readValue
    rw [exponent, scale_spec 32 _ (by omega), isBase]
    refine congrArg (wrap 64) ?_
    unfold Literal.natValue
    push_cast
    ring
  obtain ⟨low, high⟩ := fits
  unfold finish
  rw [value]
  unfold signed at low high ⊢
  by_cases minus : sign = some '-'
  · rw [if_pos (decide_eq_true minus), if_pos minus]
    rw [if_pos minus] at low high
    exact wrap_64 low high
  rw [if_neg (by rw [decide_eq_false minus]; exact Bool.false_ne_true), if_neg minus]
  rw [if_neg minus] at low high
  have negated : wrap 64 (-wrap 64 (-(l.natValue : Int))) = wrap 64 l.natValue := by
    unfold wrap
    rw [Int.bmod_neg_bmod, Int.neg_neg]
  rw [negated, wrap_64 low high]

theorem text_head (lexical : l.Lexical (below l.alphabet)) : ∃ c cs, l.text = c :: cs ∧ isDigit c = true := by
  obtain ⟨c, cs, isFirst, digit⟩ := lexical.first.head
  refine ⟨c, cs ++ l.afterFirst, ?_, isDigit_iff.mpr digit⟩
  rw [Literal.text_eq, isFirst]
  rfl

theorem sign_digit (isSign : IsSign sign) {c : Char} (isDigit' : isDigit c = true) : some c ≠ sign := by
  rintro rfl
  rcases isSign c rfl with rfl | rfl
  all_goals exact absurd isDigit' (by decide)

theorem signed_inj (isSign : IsSign sign) (isSign' : IsSign sign') (lexical : l.Lexical (below l.alphabet))
    (lexical' : l'.Lexical (below l'.alphabet)) (same : sign.toList ++ l.text = sign'.toList ++ l'.text) :
    sign = sign' ∧ l = l' := by
  obtain ⟨c, cs, isText, isDigit'⟩ := text_head lexical
  obtain ⟨c', cs', isText', isDigit''⟩ := text_head lexical'
  cases sign with
  | none =>
    cases sign' with
    | none => exact ⟨rfl, Literal.text_inj lexical lexical' same⟩
    | some d =>
      have split : l.text = d :: l'.text := same
      rw [isText] at split
      exact absurd (congrArg some (List.cons.inj split).1) (sign_digit isSign' isDigit')
  | some d =>
    cases sign' with
    | none =>
      have split : d :: l.text = l'.text := same
      rw [isText'] at split
      exact absurd (congrArg some (List.cons.inj split).1).symm (sign_digit isSign isDigit'')
    | some d' =>
      obtain ⟨rfl, rest⟩ := List.cons.inj (show d :: l.text = d' :: l'.text from same)
      exact ⟨rfl, Literal.text_inj lexical lexical' rest⟩

theorem valueI64_iff (some' : t ≠ []) (visible : EndsVisible t) (longer : ∀ c, t = [c] → ¬(c = '+' ∨ c = '-'))
    (holds : At s pos t) (length : len = pos + t.length) (v : Int) :
    valueI64 s len pos = .ok v ↔ ∃ sign l, IsSign sign ∧ Reads l ∧ t = sign.toList ++ l.text ∧
      v = finish (decide (sign = some '-')) (readValue l) := by
  obtain ⟨c, cs, rfl⟩ := List.exists_cons_of_ne_nil some'
  have isFirst : s pos = c := holds.head
  rw [valueI64_eq]
  by_cases hasSign : c = '+' ∨ c = '-'
  · have more : cs ≠ [] := by
      rintro rfl
      exact longer c rfl hasSign
    have sign : valueSign s len pos = .ok (decide (c = '-'), pos + 1) := by
      have inside : pos ≠ len := by
        rw [length, List.length_cons]
        omega
      unfold valueSign
      rw [isFirst, if_pos hasSign, if_neg inside]
    have visible' : EndsVisible cs := @EndsVisible.right [c] _ visible more
    have size : len = pos + 1 + cs.length := by
      rw [length, List.length_cons]
      omega
    rw [sign]
    show afterSign s len (decide (c = '-')) (pos + 1) = _ ↔ _
    constructor
    · intro result
      obtain ⟨l, reads, rfl⟩ := afterSign_ok more visible' holds.tail size result
      rw [afterSign_reads reads holds.tail size, Except.ok.injEq] at result
      refine ⟨some c, l, ?_, reads, rfl, ?_⟩
      · intro d isSign
        obtain rfl : c = d := Option.some.inj isSign
        exact hasSign
      · rw [← result]
        simp only [Option.some.injEq]
    · rintro ⟨sign', l, isSign, reads, same, rfl⟩
      cases sign' with
      | none =>
        obtain ⟨d, ds, isText, isDigit'⟩ := text_head reads.alphabet
        have split : c :: cs = l.text := same
        rw [isText] at split
        rw [← (List.cons.inj split).1] at isDigit'
        rcases hasSign with rfl | rfl
        all_goals exact absurd isDigit' (by decide)
      | some d =>
        obtain ⟨rfl, rfl⟩ := List.cons.inj (show c :: cs = d :: l.text from same)
        rw [afterSign_reads reads holds.tail size]
        simp only [Option.some.injEq]
  · have sign : valueSign s len pos = .ok (false, pos) := by
      unfold valueSign
      rw [isFirst, if_neg hasSign]
    rw [sign]
    show afterSign s len false pos = _ ↔ _
    constructor
    · intro result
      obtain ⟨l, reads, isText⟩ := afterSign_ok some' visible holds length result
      rw [← isText] at holds length
      rw [afterSign_reads reads holds length, Except.ok.injEq] at result
      exact ⟨none, l, nofun, reads, isText.symm, result.symm⟩
    · rintro ⟨sign', l, isSign, reads, same, rfl⟩
      cases sign' with
      | none =>
        have isText : c :: cs = l.text := same
        rw [isText] at holds length
        rw [afterSign_reads reads holds length]
        rfl
      | some d =>
        obtain ⟨rfl, _⟩ := List.cons.inj (show c :: cs = d :: l.text from same)
        exact absurd (isSign c rfl) hasSign

theorem exists_trim (text : List Char) :
    ∃ before after, text = before ++ trim text ++ after ∧ Blank before ∧ Blank after := by
  refine ⟨text.takeWhile isWhitespace, (text.dropWhile isWhitespace).rtakeWhile isWhitespace, ?_, ?_, ?_⟩
  · rw [List.append_assoc]
    unfold trim
    rw [List.rdropWhile_append_rtakeWhile, List.takeWhile_append_dropWhile]
  · exact fun c inside => List.mem_takeWhile_imp inside
  · exact fun c inside => List.mem_rtakeWhile_imp inside

theorem trimmed_trim (some' : trim text ≠ []) : Trimmed (trim text) := by
  have last : isWhitespace ((trim text).getLast some') = false := by
    have visible := List.rdropWhile_last_not isWhitespace (text.dropWhile isWhitespace) some'
    exact Bool.not_eq_true _ ▸ visible
  refine ⟨?_, (trim text).getLast some', (trim text).dropLast, (List.dropLast_append_getLast some').symm, last⟩
  obtain ⟨c, cs, isText⟩ := List.exists_cons_of_ne_nil some'
  refine ⟨c, cs, isText, ?_⟩
  have front : trim text <+: text.dropWhile isWhitespace := List.rdropWhile_prefix isWhitespace _
  obtain ⟨rest, split⟩ := front
  have visible := List.head?_dropWhile_not isWhitespace text
  rw [← split, isText] at visible
  exact visible

theorem skipLeading_blank {count : Nat} (holds : At s pos t) (blank : Blank t) (enough : t.length = count) :
    skipLeading s count pos = pos + count := by
  induction count generalizing t pos with
  | zero => rfl
  | succ count ih =>
    obtain ⟨c, cs, rfl⟩ := List.exists_cons_of_length_eq_add_one enough
    have first : isWhitespace (s pos) = true := by
      rw [holds.head]
      exact blank c List.mem_cons_self
    unfold skipLeading
    rw [first, if_pos rfl, ih holds.tail (fun d inside => blank d (List.mem_cons_of_mem c inside))
      (Nat.succ_injective enough)]
    omega

theorem valueInteger_blank (kind : IntegerKind) (holds : At s 0 text) (blank : Blank text) :
    valueInteger kind s text.length = .error "'value: empty string" := by
  have leading : skipLeading s text.length 0 = text.length := by
    rw [skipLeading_blank holds blank rfl, Nat.zero_add]
  have trailing : skipTrailing s text.length text.length = text.length := by
    cases text with
    | nil => rfl
    | cons c cs =>
      show (if _ then _ else _) = _
      rw [if_neg (by simp)]
      rfl
  unfold valueInteger removeWhitespaces
  dsimp only
  rw [Nat.sub_zero, leading, trailing, if_pos rfl]
  rfl

theorem valueInteger_trim (some' : trim text ≠ []) : ∃ before after, text = before ++ trim text ++ after ∧ Blank before ∧
    Blank after ∧ ∀ s, At s 0 text → At s before.length (trim text) ∧
      valueInteger .i64 s text.length = valueI64 s (before.length + (trim text).length) before.length := by
  obtain ⟨before, after, split, blankBefore, blankAfter⟩ := exists_trim text
  refine ⟨before, after, split, blankBefore, blankAfter, fun s holds => ?_⟩
  have parts : At s 0 (before ++ trim text ++ after) := by rwa [← split]
  have core := At.right (At.left parts)
  rw [Nat.zero_add] at core
  have removed := removeWhitespaces_spec parts blankBefore blankAfter (trimmed_trim some')
  rw [← split] at removed
  refine ⟨core, ?_⟩
  unfold valueInteger
  rw [removed]
  show (valueI64 s _ _ >>= fun val => .ok val) = _
  cases valueI64 s (before.length + (trim text).length) before.length with
  | error e => rfl
  | ok v => rfl

theorem sign_visible {c : Char} (isSign : c = '+' ∨ c = '-') : isWhitespace c = false := by
  rcases isSign with rfl | rfl
  · decide
  · decide

theorem LoneSign.trim (lone : LoneSign text) : ∃ c, trim text = [c] ∧ (c = '+' ∨ c = '-') := by
  obtain ⟨before, c, blank, isSign, rfl⟩ := lone
  refine ⟨c, ?_, isSign⟩
  have front : (before ++ [c]).dropWhile isWhitespace = [c] := by
    rw [List.dropWhile_append_of_pos blank, List.dropWhile_cons_of_neg (by rw [sign_visible isSign]; exact Bool.false_ne_true)]
  unfold Text.trim
  rw [front, List.rdropWhile_singleton, if_neg (by rw [sign_visible isSign]; exact Bool.false_ne_true)]

section Inside

variable {fuel : Nat} {c sep : Char} {val base : Int} (same : ∀ i < len, s i = s' i)

include same

theorem digitsLoop_congr (step : Int → Int → Int) (stops : Char → Bool) :
    digitsLoop s len step stops fuel pos c val = digitsLoop s' len step stops fuel pos c val := by
  induction fuel generalizing pos c val with
  | zero => rfl
  | succ fuel ih =>
    unfold digitsLoop
    by_cases digit : isDigit c = true
    · rw [if_pos digit, if_pos digit]
      dsimp only
      by_cases last : len ≤ pos + 1
      · rw [if_pos last, if_pos last]
      rw [if_neg last, if_neg last, same (pos + 1) (Nat.lt_of_not_le last)]
      simp only [ih]
      by_cases last' : len ≤ pos + 1 + 1
      · rw [if_pos last', if_pos last']
      rw [if_neg last', if_neg last', same (pos + 1 + 1) (Nat.lt_of_not_le last')]
    · rw [if_neg digit, if_neg digit]

theorem basedLoop_congr : basedLoop s len base sep fuel pos c val = basedLoop s' len base sep fuel pos c val := by
  induction fuel generalizing pos c val with
  | zero => rfl
  | succ fuel ih =>
    unfold basedLoop
    cases basedDigit c with
    | none => rfl
    | some d =>
      show (if base ≤ d then _ else _) = (if base ≤ d then _ else _)
      by_cases large : base ≤ d
      · rw [if_pos large, if_pos large]
      rw [if_neg large, if_neg large]
      dsimp only
      by_cases last : len ≤ pos + 1
      · rw [if_pos last, if_pos last]
      rw [if_neg last, if_neg last, same (pos + 1) (Nat.lt_of_not_le last)]
      simp only [ih]
      by_cases last' : len ≤ pos + 1 + 1
      · rw [if_pos last', if_pos last']
      rw [if_neg last', if_neg last', same (pos + 1 + 1) (Nat.lt_of_not_le last')]

theorem valueBased_congr : valueBased s len pos sep val = valueBased s' len pos sep val := by
  unfold valueBased
  dsimp only
  by_cases last : len ≤ pos + 1
  · rw [if_pos last, if_pos last]
  rw [if_neg last, if_neg last, same (pos + 1) (Nat.lt_of_not_le last), basedLoop_congr same]

theorem valueExponent_congr : valueExponent s len pos base val = valueExponent s' len pos base val := by
  unfold valueExponent
  by_cases last : len ≤ pos + 1
  · rw [if_pos last, if_pos last]
  rw [if_neg last, if_neg last, same (pos + 1) (Nat.lt_of_not_le last)]
  have digits : ∀ p, p < len → digitsLoop s len accumulateExponent (fun _ => false) len p (s p) 0 =
      digitsLoop s' len accumulateExponent (fun _ => false) len p (s' p) 0 := by
    intro p inside
    rw [same p inside, digitsLoop_congr same]
  dsimp only
  by_cases plus : s' (pos + 1) = '+'
  · rw [if_pos plus, if_pos plus]
    by_cases last' : len ≤ pos + 2
    · rw [if_pos last', if_pos last']
      rfl
    · rw [if_neg last', if_neg last']
      exact congrArg (fun o : Outcome (Nat × Char × Int) => o >>= fun x => .ok (x.1, scale 32 x.2.2 base val))
        (digits (pos + 2) (Nat.lt_of_not_le last'))
  rw [if_neg plus, if_neg plus]
  by_cases minus : s' (pos + 1) = '-'
  · rw [if_pos minus, if_pos minus]
    rfl
  · rw [if_neg minus, if_neg minus]
    exact congrArg (fun o : Outcome (Nat × Char × Int) => o >>= fun x => .ok (x.1, scale 32 x.2.2 base val))
      (digits (pos + 1) (Nat.lt_of_not_le last))

theorem afterSign_congr {isNeg : Bool} (inside : pos < len) :
    afterSign s len isNeg pos = afterSign s' len isNeg pos := by
  unfold afterSign
  rw [same pos inside, digitsLoop_congr same]
  refine congrArg _ (funext fun p => ?_)
  unfold afterDigits
  rw [valueBased_congr same]
  have next : afterBase s len isNeg = afterBase s' len isNeg := by
    funext q
    unfold afterBase
    rw [valueExponent_congr same]
  rw [next]

theorem valueI64_congr (inside : pos < len) (longer : s pos = '+' ∨ s pos = '-' → pos + 1 < len) :
    valueI64 s len pos = valueI64 s' len pos := by
  rw [valueI64_eq, valueI64_eq]
  unfold valueSign
  rw [← same pos inside]
  by_cases isSign : s pos = '+' ∨ s pos = '-'
  · rw [if_pos isSign]
    by_cases last : pos = len
    · rw [if_pos last]
      rfl
    · rw [if_neg last]
      exact afterSign_congr same (longer isSign)
  · rw [if_neg isSign]
    exact afterSign_congr same inside

end Inside

section Sign

variable {c : Char} (isSign : c = '+' ∨ c = '-') (isFirst : s pos = c)

include isSign isFirst

theorem valueSign_lone : valueSign s (pos + 1) pos = .ok (decide (c = '-'), pos + 1) := by
  unfold valueSign
  rw [isFirst, if_pos isSign, if_neg (by omega)]

theorem valueI64_sign (behind : s (pos + 1) = '5') : ∃ v, valueI64 s (pos + 1) pos = .ok v := by
  refine ⟨finish (decide (c = '-')) (accumulate 0 5), ?_⟩
  rw [valueI64_eq, valueSign_lone isSign isFirst]
  show afterSign s (pos + 1) (decide (c = '-')) (pos + 1) = _
  unfold afterSign
  rw [behind]
  show (if pos + 1 ≤ pos + 1 + 1 then _ else _ : Outcome _) >>= _ = _
  rw [if_pos (Nat.le_succ _)]
  show afterDigits s (pos + 1) _ (pos + 1 + 1, '5', _) = _
  unfold afterDigits
  rw [if_pos (Nat.le_succ _)]
  rfl

theorem valueI64_sign_other (behind : isDigit (s (pos + 1)) = false) :
    valueI64 s (pos + 1) pos = .error "'value: decimal digit expected" := by
  rw [valueI64_eq, valueSign_lone isSign isFirst]
  show afterSign s (pos + 1) (decide (c = '-')) (pos + 1) = _
  unfold afterSign digitsLoop
  rw [behind]
  rfl

end Sign

theorem not_isNumber_sign {c : Char} (isSign : c = '+' ∨ c = '-') (v : Int) : ¬IsNumber [c] v := by
  rintro ⟨sign, l, isSign', wellFormed, _, same, _⟩
  obtain ⟨d, ds, isText, isDigit'⟩ := text_head wellFormed.alphabet
  rw [isText] at same
  cases sign with
  | none =>
    obtain ⟨rfl, _⟩ := List.cons.inj (show [c] = d :: ds from same)
    rcases isSign with rfl | rfl
    all_goals exact absurd isDigit' (by decide)
  | some e => cases (List.cons.inj (show [c] = e :: d :: ds from same)).2

theorem signed_text (isSign : IsSign sign) (lexical : l.Lexical (below l.alphabet)) :
    sign.toList ++ l.text ≠ [] ∧ ∀ c, sign.toList ++ l.text = [c] → ¬(c = '+' ∨ c = '-') := by
  obtain ⟨d, ds, isText, isDigit'⟩ := text_head lexical
  rw [isText]
  refine ⟨List.append_ne_nil_of_right_ne_nil _ (List.cons_ne_nil d ds), fun c same isSign' => ?_⟩
  cases sign with
  | none =>
    obtain ⟨rfl, _⟩ := List.cons.inj (show d :: ds = [c] from same)
    rcases isSign' with rfl | rfl
    all_goals exact absurd isDigit' (by decide)
  | some e => cases (List.cons.inj (show e :: d :: ds = [c] from same)).2

theorem not_isNumber_nil (v : Int) : ¬IsNumber [] v := by
  rintro ⟨sign, l, isSign, wellFormed, _, same, _⟩
  exact (signed_text isSign wellFormed.alphabet).1 same.symm

theorem longer_of_misread (wrong : Misread t) : t ≠ [] ∧ ∀ c, t = [c] → ¬(c = '+' ∨ c = '-') := by
  cases wrong with
  | overflow isSign wellFormed | exponent isSign wellFormed => exact signed_text isSign wellFormed.alphabet
  | base isSign reads => exact signed_text isSign reads.alphabet

section Longer

variable (some' : t ≠ []) (visible : EndsVisible t) (longer : ∀ c, t = [c] → ¬(c = '+' ∨ c = '-')) (holds : At s pos t)

include some' visible longer holds

theorem valueI64_number (right : ¬Misread t) (v : Int) :
    valueI64 s (pos + t.length) pos = .ok v ↔ IsNumber t v ∧ IntegerKind.i64.InRange v := by
  rw [valueI64_iff some' visible longer holds rfl]
  constructor
  · rintro ⟨sign, l, isSign, reads, rfl, rfl⟩
    have small : l.radix ≤ 16 := by
      by_contra large
      exact right (.base isSign reads (Nat.lt_of_not_le large))
    obtain ⟨wellFormed, integer⟩ := reads.wellFormed small
    have fits : IntegerKind.i64.InRange (signed sign l.natValue) := by
      by_contra large
      exact right (.overflow isSign wellFormed integer reads.plain large)
    rw [finish_readValue wellFormed fits]
    exact ⟨⟨sign, l, isSign, wellFormed, integer, rfl, rfl⟩, fits⟩
  · rintro ⟨⟨sign, l, isSign, wellFormed, integer, rfl, rfl⟩, fits⟩
    have plain : l.base = none ∨ l.exponent = none := by
      by_contra both
      rw [not_or] at both
      exact right (.exponent isSign wellFormed integer both.1 both.2 fits)
    exact ⟨sign, l, isSign, reads_of_wellFormed wellFormed integer plain, rfl, (finish_readValue wellFormed fits).symm⟩

theorem valueI64_misread (wrong : Misread t) :
    ∃ v, ¬(valueI64 s (pos + t.length) pos = .ok v ↔ IsNumber t v ∧ IntegerKind.i64.InRange v) := by
  cases wrong with
  | @overflow sign l isSign wellFormed integer plain large =>
    have reads := reads_of_wellFormed wellFormed integer plain
    have value := (valueI64_iff some' visible longer holds rfl _).mpr ⟨sign, l, isSign, reads, rfl, rfl⟩
    refine ⟨finish (decide (sign = some '-')) (readValue l), fun same => ?_⟩
    obtain ⟨⟨sign', l', isSign', wellFormed', _, sameText, isValue⟩, fits⟩ := same.mp value
    obtain ⟨rfl, rfl⟩ := signed_inj isSign isSign' wellFormed.alphabet wellFormed'.alphabet sameText
    rw [isValue] at fits
    exact large fits
  | @base sign l isSign reads large =>
    have value := (valueI64_iff some' visible longer holds rfl _).mpr ⟨sign, l, isSign, reads, rfl, rfl⟩
    refine ⟨finish (decide (sign = some '-')) (readValue l), fun same => ?_⟩
    obtain ⟨⟨sign', l', isSign', wellFormed', _, sameText, _⟩, _⟩ := same.mp value
    obtain ⟨rfl, rfl⟩ := signed_inj isSign isSign' reads.alphabet wellFormed'.alphabet sameText
    have high := wellFormed'.high
    omega
  | @exponent sign l isSign wellFormed integer based scaled fits =>
    refine ⟨signed sign l.natValue, fun same => ?_⟩
    have value := same.mpr ⟨⟨sign, l, isSign, wellFormed, integer, rfl, rfl⟩, fits⟩
    obtain ⟨sign', l', isSign', reads, sameText, _⟩ := (valueI64_iff some' visible longer holds rfl _).mp value
    obtain ⟨rfl, rfl⟩ := signed_inj isSign isSign' wellFormed.alphabet reads.alphabet sameText
    exact reads.plain.elim based scaled

end Longer

/-- The string of a text, with one character everywhere behind it. -/
def stringOf (behind : Char) (text : List Char) : StringBase := fun i => text.getD i behind

theorem at_stringOf (behind : Char) (text : List Char) : At (stringOf behind text) 0 text := by
  intro i c inside
  show text.getD (0 + i) behind = c
  rw [Nat.zero_add, List.getD_eq_getElem?_getD, inside]
  rfl

theorem At.agree (holds : At s 0 text) (holds' : At s' 0 text) : ∀ i < text.length, s i = s' i := by
  intro i inside
  have isChar := List.getElem?_eq_getElem inside
  have value := holds i _ isChar
  rw [← holds' i _ isChar, Nat.zero_add] at value
  exact value

theorem endsVisible_trim (empty : trim text ≠ []) : EndsVisible (trim text) := by
  obtain ⟨c, m, isText, visible⟩ := (trimmed_trim empty).last
  intro d isLast
  rw [isText, List.getLast?_concat] at isLast
  obtain rfl : c = d := Option.some.inj isLast
  exact visible

theorem reads_iff_of_longer (empty : trim text ≠ []) (longer : ∀ c, trim text = [c] → ¬(c = '+' ∨ c = '-')) :
    ReadsNumbers text ↔ ¬Misread (trim text) := by
  have visible := endsVisible_trim empty
  obtain ⟨before, after, split, _, _, value⟩ := valueInteger_trim empty
  constructor
  · intro reads wrong
    obtain ⟨inside, same⟩ := value _ (at_stringOf ' ' text)
    obtain ⟨v, differs⟩ := valueI64_misread empty visible longer inside wrong
    refine differs ?_
    rw [← same]
    exact reads.value _ (at_stringOf ' ' text) v
  · intro right
    refine ⟨fun s holds v => ?_, fun s s' holds holds' => ?_⟩
    · obtain ⟨inside, same⟩ := value s holds
      rw [same]
      exact valueI64_number empty visible longer inside right v
    obtain ⟨inside, same⟩ := value s holds
    obtain ⟨_, same'⟩ := value s' holds'
    have size := congrArg List.length split
    rw [List.length_append, List.length_append] at size
    have agree : ∀ i < before.length + (trim text).length, s i = s' i :=
      fun i inside => holds.agree holds' i (by omega)
    have positive := List.length_pos_iff.mpr empty
    rw [same, same']
    refine valueI64_congr agree (by omega) fun isSign => ?_
    by_contra last
    obtain ⟨d, isOne⟩ := List.length_eq_one_iff.mp (show (trim text).length = 1 by omega)
    rw [isOne] at inside
    rw [inside.head] at isSign
    exact longer d isOne isSign

/-- `'value` of a text is its number, if it has one that fits, exactly when the text does not end with a lone sign and
when, without the blanks around it, it is none of those that are read wrongly. -/
theorem valueInteger_reads_iff (text : List Char) : ReadsNumbers text ↔ ¬LoneSign text ∧ ¬Misread (trim text) := by
  by_cases empty : trim text = []
  · have blank : Blank text := by
      obtain ⟨before, after, split, blankBefore, blankAfter⟩ := exists_trim text
      rw [empty, List.append_nil] at split
      intro c inside
      rw [split] at inside
      exact (List.mem_append.mp inside).elim (blankBefore c) (blankAfter c)
    have noSign : ¬LoneSign text := by
      intro lone
      obtain ⟨c, isTrim, _⟩ := lone.trim
      rw [empty] at isTrim
      cases isTrim
    refine ⟨fun _ => ⟨noSign, fun wrong => (longer_of_misread wrong).1 empty⟩,
      fun _ => ⟨fun s holds v => ?_, fun s s' holds holds' => ?_⟩⟩
    · rw [valueInteger_blank .i64 holds blank, empty]
      exact ⟨nofun, fun number => absurd number.1 (not_isNumber_nil v)⟩
    · rw [valueInteger_blank .i64 holds blank, valueInteger_blank .i64 holds' blank]
  by_cases lone : ∃ c, trim text = [c] ∧ (c = '+' ∨ c = '-')
  · obtain ⟨c, isTrim, isSign⟩ := lone
    have right : ¬Misread (trim text) := fun wrong => (longer_of_misread wrong).2 c isTrim isSign
    obtain ⟨before, after, split, blankBefore, blankAfter, value⟩ := valueInteger_trim empty
    cases after with
    | nil =>
      have lone : LoneSign text := by
        rw [List.append_nil, isTrim] at split
        exact ⟨before, c, blankBefore, isSign, split⟩
      refine ⟨fun reads => absurd lone ?_, fun neither => absurd lone neither.1⟩
      -- A digit behind the string is read.
      obtain ⟨inside, same⟩ := value _ (at_stringOf '5' text)
      have behind : stringOf '5' text (before.length + 1) = '5' := by
        rw [isTrim, List.append_nil] at split
        rw [split]
        show (before ++ [c]).getD (before.length + 1) '5' = '5'
        rw [List.getD_eq_getElem?_getD, List.getElem?_eq_none (by simp)]
        rfl
      rw [isTrim] at inside same
      obtain ⟨v, result⟩ := valueI64_sign isSign inside.head behind
      have number := (reads.value _ (at_stringOf '5' text) v).mp (same.trans result)
      rw [isTrim] at number
      exact absurd number.1 (not_isNumber_sign isSign v)
    | cons b after =>
      have blank := blankAfter b List.mem_cons_self
      have noSign : ¬LoneSign text := by
        rintro ⟨before', d, _, isSign', split'⟩
        have last := congrArg List.getLast? split
        rw [split', List.getLast?_concat, List.getLast?_append_of_ne_nil _ (List.cons_ne_nil b after)] at last
        have inside : d ∈ b :: after := List.mem_of_getLast? last.symm
        have visible := sign_visible isSign'
        rw [blankAfter d inside] at visible
        cases visible
      -- The blank is read in place of a digit.
      have failed : ∀ s, At s 0 text → valueInteger .i64 s text.length = .error "'value: decimal digit expected" := by
        intro s holds
        obtain ⟨inside, same⟩ := value s holds
        rw [split, isTrim] at holds
        have isBlank : s (before.length + 1) = b := by
          have behind := At.head (At.right holds)
          rwa [List.length_append, List.length_singleton, Nat.zero_add] at behind
        have other : isDigit (s (before.length + 1)) = false := by
          rw [isBlank, Bool.eq_false_iff]
          intro isDigit'
          rw [isDigit_visible isDigit'] at blank
          cases blank
        rw [isTrim] at inside same
        rw [same]
        exact valueI64_sign_other isSign inside.head other
      refine ⟨fun _ => ⟨noSign, right⟩, fun _ => ⟨fun s holds v => ?_, fun s s' holds holds' => ?_⟩⟩
      · rw [failed s holds, isTrim]
        exact ⟨nofun, fun number => absurd number.1 (not_isNumber_sign isSign v)⟩
      · rw [failed s holds, failed s' holds']
  · have longer : ∀ c, trim text = [c] → ¬(c = '+' ∨ c = '-') := fun c isTrim isSign => lone ⟨c, isTrim, isSign⟩
    have noSign : ¬LoneSign text := fun isLone => lone isLone.trim
    rw [reads_iff_of_longer empty longer]
    exact ⟨fun right => ⟨noSign, right⟩, fun both => both.2⟩

/-- A based literal with an exponent has no value. -/
theorem valueInteger_based_exponent :
    IsNumber (trim ['1', '6', '#', 'F', '#', 'E', '1']) 240 ∧ IntegerKind.i64.InRange 240 ∧
      valueInteger .i64 (stringOf ' ' ['1', '6', '#', 'F', '#', 'E', '1']) 7 =
        .error "'value: trailing characters after blank" ∧ ¬ReadsNumbers ['1', '6', '#', 'F', '#', 'E', '1'] := by
  have number : IsNumber (trim ['1', '6', '#', 'F', '#', 'E', '1']) 240 := by
    refine ⟨none, ⟨some (['1', '6'], '#'), ['F'], none, some ⟨'E', none, ['1']⟩⟩, nofun, ⟨by decide, by decide, ?_⟩,
      ⟨rfl, ?_⟩, by decide, by decide⟩
    · refine ⟨?_, .single (by decide), nofun, ?_⟩
      · intro base isBase
        obtain rfl := Option.some.inj isBase
        exact ⟨.digit (by decide) (.single (by decide)), Or.inl rfl⟩
      · intro e isExponent
        obtain rfl := Option.some.inj isExponent
        exact ⟨Or.inr rfl, nofun, .single (by decide)⟩
    · intro e isExponent
      obtain rfl := Option.some.inj isExponent
      exact nofun
  have fits : IntegerKind.i64.InRange 240 := by
    show (-2 ^ 63 : Int) ≤ 240 ∧ (240 : Int) < 2 ^ 63
    decide
  have failed : valueInteger .i64 (stringOf ' ' ['1', '6', '#', 'F', '#', 'E', '1']) 7 =
      .error "'value: trailing characters after blank" := by rfl
  refine ⟨number, fits, failed, fun reads => ?_⟩
  have value := (reads.value _ (at_stringOf ' ' _) 240).mpr ⟨number, fits⟩
  rw [show valueInteger .i64 (stringOf ' ' _) ['1', '6', '#', 'F', '#', 'E', '1'].length = _ from failed] at value
  cases value

end Ghdl.Text
