import Ghdl.Text.Literals

/-!
# Values of integers

`Value_I64` reads a decimal literal with or without an exponent, and a based literal without one. Where the value of
the literal fits, a decimal one is read as its value; what does not fit wraps.
-/

namespace Ghdl.Text

open Ghdl.Numbers

variable {s : StringBase} {pos len fuel : Nat} {int rest t : List Char} {isNeg : Bool}

/-- The sign of a number. -/
def finish (isNeg : Bool) (val : Int) : Int := if isNeg then val else wrap 64 (-val)

/-- `Value_I64` behind the exponent. -/
def afterExponent (len : Nat) (isNeg : Bool) (p : Nat × Int) : Outcome Int :=
  if p.1 ≠ len then .error "'value: trailing characters after blank" else .ok (finish isNeg p.2)

/-- `Value_I64` behind the digits and their base. -/
def afterBase (s : StringBase) (len : Nat) (isNeg : Bool) (p : Int × Nat × Char × Int) : Outcome Int :=
  (if p.2.2.1 = 'e' ∨ p.2.2.1 = 'E' then valueExponent s len p.2.1 p.1 p.2.2.2 else .ok (p.2.1, p.2.2.2)) >>=
    afterExponent len isNeg

/-- `Value_I64` behind the first digits. -/
def afterDigits (s : StringBase) (len : Nat) (isNeg : Bool) (p : Nat × Char × Int) : Outcome Int :=
  if len ≤ p.1 then .ok (finish isNeg p.2.2)
  else
    (if p.2.1 = '#' ∨ p.2.1 = ':' then valueBased s len p.1 p.2.1 p.2.2 else .ok (10, p.1, p.2.1, p.2.2)) >>=
      afterBase s len isNeg

/-- `Value_I64` behind the sign. -/
def afterSign (s : StringBase) (len : Nat) (isNeg : Bool) (pos : Nat) : Outcome Int :=
  digitsLoop s len accumulate (fun c => c = '#' || c = ':' || c = 'E' || c = 'e') len pos (s pos) 0 >>=
    afterDigits s len isNeg

theorem valueI64_eq (s : StringBase) (len pos : Nat) :
    valueI64 s len pos = valueSign s len pos >>= fun p => afterSign s len p.1 p.2 := by
  unfold valueI64 afterSign
  refine congrArg _ (funext fun sign => ?_)
  obtain ⟨isNeg, pos⟩ := sign
  dsimp only
  refine congrArg _ (funext fun digits => ?_)
  obtain ⟨pos, c, val⟩ := digits
  dsimp only
  have next : ∀ base pos c val, (if c = 'e' ∨ c = 'E' then valueExponent s len pos base val >>= afterExponent len isNeg
      else Except.ok (pos, val) >>= afterExponent len isNeg) = afterBase s len isNeg (base, pos, c, val) := by
    intro base pos c val
    unfold afterBase
    split
    · rfl
    · rfl
  unfold afterDigits
  split
  · rfl
  split
  · refine congrArg _ (funext fun based => ?_)
    exact next based.1 based.2.1 based.2.2.1 based.2.2.2
  · exact next 10 pos c val

/-- A text whose last character is no blank. -/
def EndsVisible (t : List Char) : Prop := ∀ c ∈ t.getLast?, isWhitespace c = false

theorem EndsVisible.right (visible : EndsVisible (int ++ rest)) (some' : rest ≠ []) : EndsVisible rest := by
  intro c inside
  refine visible c ?_
  rw [List.getLast?_append_of_ne_nil int some']
  exact inside

theorem digit_stops {c : Char} (isDigit' : isDigit c = true) : (c = '#' || c = ':' || c = 'E' || c = 'e') = false := by
  have notHash : c ≠ '#' := by rintro rfl; exact absurd isDigit' (by decide)
  have notColon : c ≠ ':' := by rintro rfl; exact absurd isDigit' (by decide)
  have notUpper : c ≠ 'E' := by rintro rfl; exact absurd isDigit' (by decide)
  have notLower : c ≠ 'e' := by rintro rfl; exact absurd isDigit' (by decide)
  simp [notHash, notColon, notUpper, notLower]

theorem exponentLoop_int (digits : Underscored (below 10) int) (holds : At s pos int) (enough : int.length ≤ fuel)
    (length : len = pos + int.length) : ∃ c, digitsLoop s len accumulateExponent (fun _ => false) fuel pos (s pos) 0 =
      .ok (len, c, wrap 32 (numeral 10 (digitsOf int))) := by
  rw [← List.append_nil int] at holds length
  obtain ⟨c, loop⟩ := @digitsLoop_int s pos len fuel int [] 0 accumulateExponent (fun _ => false)
    digits nofun holds enough length (fun _ _ => rfl)
  have value : stepped accumulateExponent int (wrap 32 0) = _ := stepped_exponent int 0
  rw [Int.zero_mul, Int.zero_add] at value
  refine ⟨c, ?_⟩
  rw [loop, if_pos rfl, ← value]
  rfl

theorem exponentLoop_other (other : ¬Underscored (below 10) t) (some' : t ≠ []) (visible : EndsVisible t)
    (holds : At s pos t) (enough : t.length ≤ fuel) (length : len = pos + t.length) {p : Nat} {c : Char} {val : Int}
    (loop : digitsLoop s len accumulateExponent (fun _ => false) fuel pos (s pos) 0 = .ok (p, c, val)) : p < len := by
  cases taken : munch (below 10) t with
  | none => exact absurd loop ((digitsLoop_none taken some' holds length fun _ _ => rfl).not_ok _)
  | some p' =>
    obtain ⟨int, rest⟩ := p'
    obtain ⟨rfl, digits, behind⟩ := munch_some taken
    have more : rest ≠ [] := by
      rintro rfl
      rw [List.append_nil] at other
      exact other digits
    have shorter : int.length ≤ (int ++ rest).length := by rw [List.length_append]; exact Nat.le_add_right _ _
    obtain ⟨d, result⟩ := @digitsLoop_int s pos len fuel int rest 0 accumulateExponent (fun _ => false) digits behind
      holds (Nat.le_trans shorter enough) length (fun _ _ => rfl)
    rw [result, if_neg more, if_neg Bool.false_ne_true] at loop
    split at loop
    case isTrue blank =>
      rw [Except.ok.injEq, Prod.mk.injEq] at loop
      -- The blank is not the last character.
      have second : 1 < rest.length := by
        obtain ⟨e, es, rfl⟩ := List.exists_cons_of_ne_nil more
        cases es with
        | nil =>
          rw [At.head (l := []) holds.right, visible.right more e rfl] at blank
          cases blank
        | cons e' es => exact Nat.succ_lt_succ (Nat.succ_pos _)
      rw [length, List.length_append]
      omega
    case isFalse => cases loop

theorem valueExponent_spec {e : Exponent} (wellFormed : e.WellFormed) (positive : e.sign ≠ some '-') (base val : Int)
    (holds : At s pos e.text) (length : len = pos + e.text.length) :
    valueExponent s len pos base val = .ok (len, scale 32 (wrap 32 e.magnitude) base val) := by
  obtain ⟨letter, sign, int⟩ := e
  obtain ⟨d, ds, rfl, isDigit'⟩ := wellFormed.int.head
  cases sign with
  | none =>
    have holds' : At s (pos + 1) (d :: ds) := holds.tail
    have size : len = pos + 1 + (d :: ds).length := by
      rw [length]
      show pos + ((d :: ds).length + 1) = _
      omega
    have inside : ¬len ≤ pos + 1 := by
      rw [size, List.length_cons]
      omega
    obtain ⟨c, loop⟩ := @exponentLoop_int s _ len len _ wellFormed.int holds' (by rw [size]; exact Nat.le_add_left _ _) size
    have notPlus : d ≠ '+' := by rintro rfl; exact absurd isDigit' (by decide)
    have notMinus : d ≠ '-' := by rintro rfl; exact absurd isDigit' (by decide)
    unfold valueExponent
    rw [if_neg inside, holds'.head, if_neg notPlus, if_neg notMinus]
    show (digitsLoop s len accumulateExponent (fun _ => false) len (pos + 1) (s (pos + 1)) 0 >>= _) = _
    rw [loop]
    rfl
  | some sign =>
    obtain rfl : sign = '+' := by
      rcases wellFormed.sign sign rfl with plus | minus
      · exact plus
      · exact absurd (congrArg some minus) positive
    have holds' : At s (pos + 2) (d :: ds) := holds.tail.tail
    have size : len = pos + 2 + (d :: ds).length := by
      rw [length]
      show pos + ((d :: ds).length + 1 + 1) = _
      omega
    have inside : ¬len ≤ pos + 1 := by omega
    have inside' : ¬len ≤ pos + 2 := by
      rw [size, List.length_cons]
      omega
    obtain ⟨c, loop⟩ := @exponentLoop_int s _ len len _ wellFormed.int holds' (by rw [size]; exact Nat.le_add_left _ _) size
    unfold valueExponent
    rw [if_neg inside, At.head holds.tail, if_pos rfl, if_neg inside']
    show (digitsLoop s len accumulateExponent (fun _ => false) len (pos + 2) (s (pos + 2)) 0 >>= _) = _
    rw [loop]
    rfl

/-- An exponent is read to the end of the string only when it is one. -/
theorem valueExponent_whole {c : Char} (visible : EndsVisible (c :: t)) (isLetter : c = 'e' ∨ c = 'E')
    (holds : At s pos (c :: t)) (length : len = pos + (c :: t).length) {base val val' : Int}
    (result : valueExponent s len pos base val = .ok (len, val')) :
    ∃ e : Exponent, e.WellFormed ∧ e.sign ≠ some '-' ∧ e.text = c :: t := by
  have size : len = pos + 1 + t.length := by
    rw [length, List.length_cons]
    omega
  unfold valueExponent at result
  by_cases last : len ≤ pos + 1
  · rw [if_pos last] at result
    cases result
  rw [if_neg last] at result
  have some' : t ≠ [] := by
    rintro rfl
    exact last (by rw [size]; exact Nat.le_refl _)
  have visible' : EndsVisible t := @EndsVisible.right [c] _ visible some'
  obtain ⟨d, ds, rfl⟩ := List.exists_cons_of_ne_nil some'
  have isNext : s (pos + 1) = d := At.head holds.tail
  rw [isNext] at result
  by_cases plus : d = '+'
  · rw [if_pos plus] at result
    by_cases last' : len ≤ pos + 2
    · rw [if_pos last'] at result
      cases result
    rw [if_neg last'] at result
    have some'' : ds ≠ [] := by
      rintro rfl
      exact last' (by rw [size]; exact Nat.le_refl _)
    by_cases digits : Underscored (below 10) ds
    · refine ⟨⟨c, some '+', ds⟩, ⟨isLetter, ?_, digits⟩, by simp, by rw [plus]; rfl⟩
      intro d isSign
      exact Or.inl (Option.some.inj isSign).symm
    exfalso
    cases loop : digitsLoop s len accumulateExponent (fun _ => false) len (pos + 2) (s (pos + 2)) 0 with
    | error e =>
      change (digitsLoop s len accumulateExponent (fun _ => false) len (pos + 2) (s (pos + 2)) 0 >>= _) = _ at result
      rw [loop] at result
      cases result
    | ok q =>
      obtain ⟨p, c', exp⟩ := q
      have short := exponentLoop_other digits some'' (@EndsVisible.right [d] _ visible' some'') holds.tail.tail
        (by rw [size, List.length_cons]; omega) (by rw [size, List.length_cons]; omega) loop
      change (digitsLoop s len accumulateExponent (fun _ => false) len (pos + 2) (s (pos + 2)) 0 >>= _) = _ at result
      rw [loop] at result
      have same : p = len := congrArg Prod.fst (Except.ok.inj result)
      omega
  · rw [if_neg plus] at result
    by_cases minus : d = '-'
    · rw [if_pos minus] at result
      cases result
    rw [if_neg minus] at result
    by_cases digits : Underscored (below 10) (d :: ds)
    · refine ⟨⟨c, none, d :: ds⟩, ⟨isLetter, nofun, digits⟩, nofun, rfl⟩
    exfalso
    change (digitsLoop s len accumulateExponent (fun _ => false) len (pos + 1) (s (pos + 1)) 0 >>= _) = _ at result
    cases loop : digitsLoop s len accumulateExponent (fun _ => false) len (pos + 1) (s (pos + 1)) 0 with
    | error e =>
      rw [loop] at result
      cases result
    | ok q =>
      obtain ⟨p, c', exp⟩ := q
      have short := exponentLoop_other digits (List.cons_ne_nil d ds) visible' holds.tail
        (by rw [size]; exact Nat.le_add_left _ _) size loop
      rw [loop] at result
      have same : p = len := congrArg Prod.fst (Except.ok.inj result)
      omega

/-- The base of a literal, as `Value_I64` reads it. -/
def readBase (l : Literal) : Nat := (wrap 64 l.radix).toNat

/-- The literals that `Value_I64` reads: a based one has no exponent, and the base is what is left of its number. -/
structure Reads (l : Literal) : Prop where
  fraction : l.fraction = none
  positive : ∀ e ∈ l.exponent, e.sign ≠ some '-'
  low : 2 ≤ wrap 64 l.radix
  high : wrap 64 l.radix ≤ 16
  lexical : l.Lexical (below (readBase l))
  plain : l.base = none ∨ l.exponent = none

theorem wrap_ten : wrap 64 (10 : Nat) = 10 := wrap_64 (by omega) (by omega)

theorem readBase_decimal {l : Literal} (decimal : l.base = none) : readBase l = 10 := by
  unfold readBase Literal.radix
  rw [decimal]
  show (wrap 64 (10 : Nat)).toNat = 10
  rw [wrap_ten]
  rfl

/-- The number of the digits of a literal, before the sign is taken into account. -/
def readValue (l : Literal) : Int :=
  scale 32 (wrap 32 (l.exponent.elim 0 Exponent.magnitude : Nat)) (wrap 64 l.radix)
    (wrap 64 (-(numeral (readBase l) (digitsOf l.int) : Int)))

theorem readValue_decimal {l : Literal} (decimal : l.base = none) :
    readValue l = scale 32 (wrap 32 (l.exponent.elim 0 Exponent.magnitude : Nat)) 10
      (wrap 64 (-(numeral 10 (digitsOf l.int) : Int))) := by
  have ten : wrap 64 l.radix = 10 := by
    unfold Literal.radix
    rw [decimal]
    exact wrap_ten
  unfold readValue
  rw [readBase_decimal decimal, ten]

theorem readValue_plain {l : Literal} (plain : l.exponent = none) :
    readValue l = wrap 64 (-(numeral (readBase l) (digitsOf l.int) : Int)) := by
  unfold readValue
  rw [plain]
  show scale 32 (wrap 32 (0 : Nat)) _ _ = _
  rw [show wrap 32 (0 : Nat) = 0 from rfl]
  unfold scale
  rw [if_neg (by decide)]

theorem accumulated (int : List Char) : stepped accumulate int 0 = wrap 64 (-(numeral 10 (digitsOf int) : Int)) := by
  have value : stepped (accumulateIn (10 : Nat)) int (wrap 64 0) = _ := stepped_accumulateIn 10 int 0
  rw [Int.zero_mul, Int.zero_sub] at value
  exact value

theorem accumulatedIn (base : Nat) (int : List Char) :
    stepped (accumulateIn base) int 0 = wrap 64 (-(numeral base (digitsOf int) : Int)) := by
  have value : stepped (accumulateIn base) int (wrap 64 0) = _ := stepped_accumulateIn base int 0
  rw [Int.zero_mul, Int.zero_sub] at value
  exact value

theorem firstLoop_int (digits : Underscored (below 10) int) (behind : Stops (below 10) rest)
    (holds : At s pos (int ++ rest)) (length : len = pos + (int ++ rest).length) :
    ∃ c, digitsLoop s len accumulate (fun c => c = '#' || c = ':' || c = 'E' || c = 'e') len pos (s pos) 0 =
      if rest = [] then .ok (len, c, wrap 64 (-(numeral 10 (digitsOf int) : Int)))
      else if (s (pos + int.length) = '#' || s (pos + int.length) = ':' || s (pos + int.length) = 'E' ||
          s (pos + int.length) = 'e') = true then
        .ok (pos + int.length, s (pos + int.length), wrap 64 (-(numeral 10 (digitsOf int) : Int)))
      else if isWhitespace (s (pos + int.length)) then
        .ok (pos + int.length + 1, s (pos + int.length), wrap 64 (-(numeral 10 (digitsOf int) : Int)))
      else .error "'value: decimal digit expected" := by
  have enough : int.length ≤ len := by
    rw [length, List.length_append]
    omega
  rw [← accumulated]
  exact @digitsLoop_int s pos len len int rest 0 accumulate _ digits behind holds enough length
    (fun _ isDigit' => digit_stops isDigit')

theorem valueBased_spec {sep : Char} (isSep : sep = '#' ∨ sep = ':') {radix : Nat} (low : 2 ≤ wrap 64 radix)
    (high : wrap 64 radix ≤ 16) (digits : Underscored (below (wrap 64 radix).toNat) int)
    (holds : At s (pos + 1) (int ++ sep :: rest)) (length : len = pos + 1 + (int ++ sep :: rest).length) :
    valueBased s len pos sep (wrap 64 (-(radix : Int))) = .ok (wrap 64 radix, pos + 1 + int.length + 1, sep,
        wrap 64 (-(numeral (wrap 64 radix).toNat (digitsOf int) : Int))) := by
  have base : wrap 64 (-wrap 64 (-(radix : Int))) = wrap 64 radix := by
    unfold wrap
    rw [Int.bmod_neg_bmod, Int.neg_neg]
  have nat : (((wrap 64 radix).toNat : Nat) : Int) = wrap 64 radix := Int.toNat_of_nonneg (by omega)
  have inside : ¬len ≤ pos + 1 := by
    rw [length, List.length_append, List.length_cons]
    omega
  have loop := @basedLoop_int s (pos + 1) len len int (sep :: rest) 0 (wrap 64 radix).toNat sep isSep digits
    (Literal.stops_separator isSep) holds (by rw [length, List.length_append]; omega) length
  rw [if_pos (show (sep :: rest).head? = some sep from rfl), nat] at loop
  unfold valueBased
  dsimp only
  rw [base, if_neg (by omega), if_neg inside, loop, ← accumulatedIn, nat]
  rfl

variable {l : Literal}

theorem afterSign_reads (reads : Reads l) (holds : At s pos l.text) (length : len = pos + l.text.length) :
    afterSign s len isNeg pos = .ok (finish isNeg (readValue l)) := by
  obtain ⟨base, int, fraction, exponent⟩ := l
  obtain ⟨rfl, positive, low, high, lexical, plain⟩ := reads
  cases base with
  | none =>
    have digits : Underscored (below 10) int := by
      have read := lexical.int
      rw [readBase_decimal rfl] at read
      exact read
    change At s pos (int ++ exponent.elim [] Exponent.text) at holds
    change len = pos + (int ++ exponent.elim [] Exponent.text).length at length
    cases exponent with
    | none =>
      obtain ⟨c, loop⟩ := @firstLoop_int s pos len int [] digits nofun holds length
      unfold afterSign
      rw [loop]
      show afterDigits s len isNeg (len, c, _) = _
      unfold afterDigits
      rw [if_pos (Nat.le_refl _), readValue_plain rfl, readBase_decimal rfl]
    | some e =>
      have wellFormed := lexical.exponent e rfl
      have atLetter : s (pos + int.length) = e.letter := At.head (At.right holds)
      have size : len = pos + int.length + e.text.length := by
        rw [length, List.length_append]
        show pos + (int.length + e.text.length) = _
        omega
      have inside : ¬len ≤ pos + int.length := by
        rw [size]
        show ¬pos + int.length + ((e.sign.toList ++ e.int).length + 1) ≤ _
        omega
      have stops : (e.letter = '#' || e.letter = ':' || e.letter = 'E' || e.letter = 'e') = true ∧
          ¬(e.letter = '#' ∨ e.letter = ':') ∧ (e.letter = 'e' ∨ e.letter = 'E') := by
        rcases wellFormed.letter with letter | letter
        all_goals
          rw [letter]
          decide
      obtain ⟨c, loop⟩ := @firstLoop_int s pos len int e.text digits (Literal.stops_exponent lexical.exponent) holds
        length
      rw [if_neg (show ¬e.text = [] from List.cons_ne_nil _ _), atLetter, if_pos stops.1] at loop
      unfold afterSign
      rw [loop]
      show afterDigits s len isNeg (pos + int.length, e.letter, _) = _
      unfold afterDigits
      rw [if_neg inside, if_neg stops.2.1]
      show afterBase s len isNeg (10, pos + int.length, e.letter, _) = _
      unfold afterBase
      rw [if_pos stops.2.2, valueExponent_spec wellFormed (positive e rfl) 10 _ (At.right holds) size]
      show afterExponent len isNeg (len, _) = _
      unfold afterExponent
      rw [if_neg (not_not.mpr rfl), readValue_decimal rfl]
      dsimp only [Option.elim_some]
  | some based =>
    obtain ⟨base, sep⟩ := based
    obtain ⟨baseDigits, isSep⟩ := lexical.base (base, sep) rfl
    obtain rfl : exponent = none := plain.resolve_left nofun
    change Underscored (below 10) base at baseDigits
    change sep = '#' ∨ sep = ':' at isSep
    change 2 ≤ wrap 64 (numeral 10 (digitsOf base) : Nat) at low
    change wrap 64 (numeral 10 (digitsOf base) : Nat) ≤ 16 at high
    have digits : Underscored (below (wrap 64 (numeral 10 (digitsOf base) : Nat)).toNat) int := lexical.int
    change At s pos (base ++ sep :: (int ++ [sep])) at holds
    change len = pos + (base ++ sep :: (int ++ [sep])).length at length
    have atSep : s (pos + base.length) = sep := At.head (At.right holds)
    have size : len = pos + base.length + 1 + (int ++ [sep]).length := by
      rw [length, List.length_append, List.length_cons]
      omega
    have inside : ¬len ≤ pos + base.length := by omega
    have stops : (sep = '#' || sep = ':' || sep = 'E' || sep = 'e') = true ∧ ¬(sep = 'e' ∨ sep = 'E') := by
      rcases isSep with rfl | rfl
      · decide
      · decide
    obtain ⟨c, loop⟩ := firstLoop_int baseDigits (Literal.stops_separator isSep) holds length
    rw [if_neg (List.cons_ne_nil _ _), atSep, if_pos stops.1] at loop
    have whole : pos + base.length + 1 + int.length + 1 = len := by
      rw [size, List.length_append]
      rfl
    unfold afterSign
    rw [loop]
    show afterDigits s len isNeg (pos + base.length, sep, _) = _
    unfold afterDigits
    rw [if_neg inside, if_pos isSep, valueBased_spec isSep low high digits (At.tail (At.right holds)) size]
    show afterBase s len isNeg (_, pos + base.length + 1 + int.length + 1, sep, _) = _
    unfold afterBase
    rw [if_neg stops.2, whole]
    show afterExponent len isNeg (len, _) = _
    unfold afterExponent
    rw [if_neg (not_not.mpr rfl), readValue_plain rfl]
    rfl

/-- A based literal is read only when there is one. -/
theorem valueBased_ok {sep : Char} (isSep : sep = '#' ∨ sep = ':') {radix : Nat} (holds : At s (pos + 1) t)
    (length : len = pos + 1 + t.length) {q : Int × Nat × Char × Int}
    (result : valueBased s len pos sep (wrap 64 (-(radix : Int))) = .ok q) : 2 ≤ wrap 64 radix ∧ wrap 64 radix ≤ 16 ∧
      ∃ ds cs, t = ds ++ sep :: cs ∧ Underscored (below (wrap 64 radix).toNat) ds := by
  have base : wrap 64 (-wrap 64 (-(radix : Int))) = wrap 64 radix := by
    unfold wrap
    rw [Int.bmod_neg_bmod, Int.neg_neg]
  unfold valueBased at result
  dsimp only at result
  rw [base] at result
  by_cases bad : wrap 64 radix < 2 ∨ 16 < wrap 64 radix
  · rw [if_pos bad] at result
    cases result
  rw [if_neg bad] at result
  have nat : (((wrap 64 radix).toNat : Nat) : Int) = wrap 64 radix := Int.toNat_of_nonneg (by omega)
  refine ⟨by omega, by omega, ?_⟩
  by_cases last : len ≤ pos + 1
  · rw [if_pos last] at result
    cases result
  rw [if_neg last, ← nat] at result
  have some' : t ≠ [] := by
    rintro rfl
    exact last (by rw [length]; exact Nat.le_refl _)
  cases taken : munch (below (wrap 64 radix).toNat) t with
  | none =>
    have failed := (@basedLoop_none s (pos + 1) len len t 0 (wrap 64 radix).toNat sep taken some' holds length).bind
      fun q : Nat × Char × Int => (.ok (((wrap 64 radix).toNat : Int), q.1, q.2.1, q.2.2) : Outcome _)
    exact absurd result (failed.not_ok q)
  | some p =>
    obtain ⟨ds, cs⟩ := p
    obtain ⟨rfl, digits, behind⟩ := munch_some taken
    have loop := @basedLoop_int s (pos + 1) len len ds cs 0 (wrap 64 radix).toNat sep isSep digits behind holds
      (by rw [length, List.length_append]; omega) length
    by_cases closed : cs.head? = some sep
    · obtain ⟨cs', rfl⟩ : ∃ cs', cs = sep :: cs' := by
        cases cs with
        | nil => cases closed
        | cons c cs' => exact ⟨cs', by rw [Option.some.inj closed]⟩
      exact ⟨ds, cs', rfl, digits⟩
    · rw [if_neg closed] at loop
      have failed := loop.bind
        fun q : Nat × Char × Int => (.ok (((wrap 64 radix).toNat : Int), q.1, q.2.1, q.2.2) : Outcome _)
      exact absurd result (failed.not_ok q)

theorem afterExponent_ok {p : Nat × Int} {v : Int} (result : afterExponent len isNeg p = .ok v) : p.1 = len := by
  unfold afterExponent at result
  split at result
  case isTrue => cases result
  case isFalse same => exact not_not.mp same

theorem afterSign_ok (some' : t ≠ []) (visible : EndsVisible t) (holds : At s pos t) (length : len = pos + t.length)
    {v : Int} (result : afterSign s len isNeg pos = .ok v) : ∃ l, Reads l ∧ l.text = t := by
  unfold afterSign at result
  cases taken : munch (below 10) t with
  | none =>
    have failed := (@digitsLoop_none s pos len len t 0 accumulate _ taken some' holds length
      fun _ isDigit' => digit_stops isDigit').bind (afterDigits s len isNeg)
    exact absurd result (failed.not_ok v)
  | some p =>
    obtain ⟨int, rest⟩ := p
    obtain ⟨rfl, digits, behind⟩ := munch_some taken
    have decimalBase : wrap 64 (10 : Nat) = 10 := wrap_ten
    obtain ⟨c, loop⟩ := firstLoop_int digits behind holds length
    cases rest with
    | nil =>
      refine ⟨⟨none, int, none, none⟩, ⟨rfl, nofun, ?_, ?_, ⟨nofun, ?_, nofun, nofun⟩, Or.inl rfl⟩, rfl⟩
      · show 2 ≤ wrap 64 (10 : Nat)
        omega
      · show wrap 64 (10 : Nat) ≤ 16
        omega
      · rw [readBase_decimal rfl]
        exact digits
    | cons d cs =>
      have isNext : s (pos + int.length) = d := At.head holds.right
      have visible' : EndsVisible (d :: cs) := visible.right (List.cons_ne_nil d cs)
      have size : len = pos + int.length + 1 + cs.length := by
        rw [length, List.length_append, List.length_cons]
        omega
      rw [if_neg (List.cons_ne_nil d cs), isNext] at loop
      by_cases separator : d = '#' ∨ d = ':'
      · have stops : (d = '#' || d = ':' || d = 'E' || d = 'e') = true ∧ ¬(d = 'e' ∨ d = 'E') := by
          rcases separator with rfl | rfl
          · decide
          · decide
        rw [if_pos stops.1] at loop
        rw [loop] at result
        change afterDigits s len isNeg (pos + int.length, d, _) = _ at result
        unfold afterDigits at result
        rw [if_neg (by dsimp only; omega), if_pos separator] at result
        cases based : valueBased s len (pos + int.length) d (wrap 64 (-(numeral 10 (digitsOf int) : Int))) with
        | error e =>
          rw [based] at result
          cases result
        | ok q =>
          obtain ⟨low, high, ds, cs', rfl, digits'⟩ := valueBased_ok separator (At.tail holds.right) size based
          have value := valueBased_spec separator low high digits' (At.tail holds.right) size
          rw [value] at result
          change afterBase s len isNeg (_, pos + int.length + 1 + ds.length + 1, d, _) = _ at result
          unfold afterBase at result
          rw [if_neg stops.2] at result
          have whole : pos + int.length + 1 + ds.length + 1 = len := afterExponent_ok result
          obtain rfl : cs' = [] := by
            rw [List.length_append, List.length_cons] at size
            exact List.eq_nil_of_length_eq_zero (by omega)
          refine ⟨⟨some (int, d), ds, none, none⟩, ⟨rfl, nofun, low, high, ⟨?_, digits', nofun, nofun⟩, Or.inr rfl⟩, rfl⟩
          intro base isBase
          obtain rfl : (int, d) = base := Option.some.inj isBase
          exact ⟨digits, separator⟩
      by_cases letter : d = 'e' ∨ d = 'E'
      · have stops : (d = '#' || d = ':' || d = 'E' || d = 'e') = true := by
          rcases letter with rfl | rfl
          · decide
          · decide
        rw [if_pos stops] at loop
        rw [loop] at result
        change afterDigits s len isNeg (pos + int.length, d, _) = _ at result
        unfold afterDigits at result
        rw [if_neg (by dsimp only; omega), if_neg separator] at result
        change afterBase s len isNeg (10, pos + int.length, d, _) = _ at result
        unfold afterBase at result
        rw [if_pos letter] at result
        dsimp only at result
        cases exponent : valueExponent s len (pos + int.length) 10 (wrap 64 (-(numeral 10 (digitsOf int) : Int))) with
        | error e =>
          rw [exponent] at result
          cases result
        | ok q =>
          obtain ⟨p, val⟩ := q
          rw [exponent] at result
          obtain rfl : p = len := afterExponent_ok result
          obtain ⟨e, wellFormed, positive, isText⟩ := valueExponent_whole visible' letter holds.right
            (by rw [size, List.length_cons]; omega) exponent
          refine ⟨⟨none, int, none, some e⟩, ⟨rfl, ?_, ?_, ?_, ⟨nofun, ?_, nofun, ?_⟩, Or.inl rfl⟩, ?_⟩
          · intro e' isExponent
            obtain rfl : e = e' := Option.some.inj isExponent
            exact positive
          · show 2 ≤ wrap 64 (10 : Nat)
            omega
          · show wrap 64 (10 : Nat) ≤ 16
            omega
          · rw [readBase_decimal rfl]
            exact digits
          · intro e' isExponent
            obtain rfl : e = e' := Option.some.inj isExponent
            exact wellFormed
          · show int ++ e.text = _
            rw [isText]
      · have stops : ¬(d = '#' || d = ':' || d = 'E' || d = 'e') = true := by
          simp only [not_or] at separator letter
          simp [separator.1, separator.2, letter.1, letter.2]
        rw [if_neg stops] at loop
        split at loop
        case isFalse =>
          rw [loop] at result
          cases result
        case isTrue blank =>
          rw [loop] at result
          change afterDigits s len isNeg (pos + int.length + 1, d, _) = _ at result
          -- The blank is not the last character.
          have more : cs ≠ [] := by
            rintro rfl
            rw [visible' d rfl] at blank
            cases blank
          have inside : ¬len ≤ pos + int.length + 1 := by
            have positive := List.length_pos_iff.mpr more
            omega
          unfold afterDigits at result
          rw [if_neg inside, if_neg separator] at result
          change afterBase s len isNeg (10, pos + int.length + 1, d, _) = _ at result
          unfold afterBase at result
          rw [if_neg letter] at result
          have whole : pos + int.length + 1 = len := afterExponent_ok result
          omega

end Ghdl.Text
