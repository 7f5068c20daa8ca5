import Ghdl.Numbers.Numerals
import Ghdl.Numbers.Underscores

/-!
# Abstract literals

A literal is an integer with an optional fraction and an optional exponent; it is decimal, or it is based: its base
stands in front of a separator, that stands behind its digits again. Each digit of a literal is below its base, which
is 2 to 16. A text is that of one literal at most.
-/

namespace Ghdl.Numbers

/-- The value of an extended digit. -/
def extendedDigit (c : Char) : Option ℕ :=
  if '0' ≤ c ∧ c ≤ '9' then some (c.toNat - 48)
  else if 'a' ≤ c ∧ c ≤ 'f' then some (c.toNat - 87)
  else if 'A' ≤ c ∧ c ≤ 'F' then some (c.toNat - 55)
  else none

/-- The character is a digit that is less than the base. -/
def below (base : ℕ) (c : Char) : Bool := (extendedDigit c).any (· < base)

/-- The digits of an integer: an underscore has no value. -/
def digitsOf (int : List Char) : List ℕ := int.filterMap extendedDigit

/-- An exponent. -/
structure Exponent where
  letter : Char
  sign : Option Char
  int : List Char

namespace Exponent

variable (e : Exponent)

/-- The characters of an exponent. -/
def text : List Char := e.letter :: (e.sign.toList ++ e.int)

/-- The number of an exponent, without its sign. -/
def magnitude : ℕ := numeral 10 (digitsOf e.int)

/-- The exponent is written as one. -/
structure WellFormed : Prop where
  letter : e.letter = 'e' ∨ e.letter = 'E'
  sign : ∀ c ∈ e.sign, c = '+' ∨ c = '-'
  int : Underscored (below 10) e.int

end Exponent

/-- A literal: the integer and the separator of the base are those of a based one. -/
structure Literal where
  base : Option (List Char × Char)
  int : List Char
  fraction : Option (List Char)
  exponent : Option Exponent

namespace Literal

variable (l : Literal)

/-- The characters of the fraction. -/
def fractionText : List Char := l.fraction.elim [] ('.' :: ·)

/-- The characters of the exponent. -/
def exponentText : List Char := l.exponent.elim [] Exponent.text

/-- The characters of a literal. -/
def text : List Char :=
  match l.base with
  | none => l.int ++ (l.fractionText ++ l.exponentText)
  | some (base, sep) => base ++ sep :: (l.int ++ (l.fractionText ++ sep :: l.exponentText))

/-- The base of a literal. -/
def radix : ℕ := l.base.elim 10 fun base => numeral 10 (digitsOf base.1)

/-- The literal is written as one, but for the value of its base. -/
structure Lexical (digit : Char → Bool) : Prop where
  base : ∀ base ∈ l.base, Underscored (below 10) base.1 ∧ (base.2 = '#' ∨ base.2 = ':')
  int : Underscored digit l.int
  fraction : ∀ fraction ∈ l.fraction, Underscored digit fraction
  exponent : ∀ e ∈ l.exponent, e.WellFormed

/-- The literal is one of the language. -/
structure WellFormed : Prop where
  low : 2 ≤ l.radix
  high : l.radix ≤ 16
  lexical : l.Lexical (below l.radix)

/-- The literal is an integer one: it has no fraction, and its exponent has no minus sign. -/
structure IsInteger : Prop where
  fraction : l.fraction = none
  exponent : ∀ e ∈ l.exponent, e.sign ≠ some '-'

/-- The number of an integer literal. -/
def natValue : ℕ := numeral l.radix (digitsOf l.int) * l.radix ^ l.exponent.elim 0 Exponent.magnitude

end Literal

section Digits

variable {c : Char} {base d : ℕ}

theorem below_iff : below base c = true ↔ ∃ d, extendedDigit c = some d ∧ d < base := by
  unfold below
  rw [Option.any_eq_true]
  simp

theorem below_mono {base' : ℕ} (le : base ≤ base') (digit : below base c = true) : below base' c = true := by
  obtain ⟨d, isDigit, small⟩ := below_iff.mp digit
  exact below_iff.mpr ⟨d, isDigit, Nat.lt_of_lt_of_le small le⟩

theorem below_none (none : extendedDigit c = none) : below base c = false := by
  unfold below
  rw [none]
  rfl

theorem Underscored.mono {ok ok' : Char → Bool} (le : ∀ c, ok c = true → ok' c = true) {int : List Char}
    (digits : Underscored ok int) : Underscored ok' int := by
  induction digits with
  | single digit => exact .single (le _ digit)
  | digit digit _ ih => exact .digit (le _ digit) ih
  | underscore digit _ ih => exact .underscore (le _ digit) ih

end Digits

section Unique

variable {ok : Char → Bool} {int int' rest rest' : List Char}

theorem Underscored.unique (digits : Underscored ok int) (digits' : Underscored ok int') (plain : ok '_' = false)
    (stops : Stops ok rest) (stops' : Stops ok rest') (same : int ++ rest = int' ++ rest') :
    int = int' ∧ rest = rest' := by
  have taken := munch_append digits plain stops
  rw [same, munch_append digits' plain stops', Option.some.injEq, Prod.mk.injEq] at taken
  exact ⟨taken.1.symm, taken.2.symm⟩

theorem stops_cons {c : Char} (other : ok c = false) (underscore : c ≠ '_') : Stops ok (c :: rest) := by
  intro d inside
  obtain rfl : c = d := by simpa using inside
  exact ⟨other, underscore⟩

namespace Exponent

variable {e e' : Exponent}

theorem text_inj (wellFormed : e.WellFormed) (wellFormed' : e'.WellFormed) (same : e.text = e'.text) : e = e' := by
  obtain ⟨letter, sign, int⟩ := e
  obtain ⟨letter', sign', int'⟩ := e'
  have noSign : ∀ {c : Char} {cs int : List Char}, (c = '+' ∨ c = '-') → Underscored (below 10) int → c :: cs ≠ int := by
    rintro c cs int isSign digits rfl
    obtain ⟨d, ds, same, isDigit⟩ := digits.head
    rw [← (List.cons.inj same).1] at isDigit
    rcases isSign with rfl | rfl
    all_goals exact absurd isDigit (by decide)
  obtain ⟨rfl, rest⟩ := List.cons.inj same
  cases sign with
  | none =>
    cases sign' with
    | none => exact congrArg (Exponent.mk letter none) rest
    | some c => exact absurd rest.symm (noSign (wellFormed'.sign c rfl) wellFormed.int)
  | some c =>
    cases sign' with
    | none => exact absurd rest (noSign (wellFormed.sign c rfl) wellFormed'.int)
    | some c' =>
      obtain ⟨rfl, rfl⟩ := List.cons.inj rest
      rfl

end Exponent

namespace Literal

variable {l l' : Literal}

theorem below_point (base : ℕ) : below base '.' = false ∧ below base '#' = false ∧ below base ':' = false ∧
    below base '_' = false := ⟨below_none rfl, below_none rfl, below_none rfl, below_none rfl⟩

theorem stops_separator {base : ℕ} {sep : Char} (isSep : sep = '#' ∨ sep = ':') : Stops (below base) (sep :: rest) := by
  rcases isSep with rfl | rfl
  · exact stops_cons (below_point base).2.1 (by decide)
  · exact stops_cons (below_point base).2.2.1 (by decide)

theorem stops_fraction {base : ℕ} (behind : l.fraction = none → Stops (below base) rest) :
    Stops (below base) (l.fractionText ++ rest) := by
  unfold fractionText
  cases isFraction : l.fraction with
  | none => exact behind isFraction
  | some fraction => exact stops_cons (below_point base).1 (by decide)

section

variable (wellFormed : ∀ e ∈ l.exponent, e.WellFormed)
include wellFormed

theorem stops_exponent : Stops (below 10) l.exponentText := by
  unfold exponentText
  cases isExponent : l.exponent with
  | none => exact nofun
  | some e =>
    rcases (wellFormed e isExponent).letter with letter | letter
    all_goals
      show Stops _ (e.letter :: _)
      rw [letter]
      exact stops_cons (by decide) (by decide)

theorem exponent_head {c : Char} {cs : List Char}
    (isText : l.exponentText = c :: cs) : c = 'e' ∨ c = 'E' := by
  unfold exponentText at isText
  cases isExponent : l.exponent with
  | none =>
    rw [isExponent] at isText
    cases isText
  | some e =>
    rw [isExponent] at isText
    obtain ⟨rfl, _⟩ := List.cons.inj isText
    exact (wellFormed e isExponent).letter

theorem exponent_inj (wellFormed' : ∀ e ∈ l'.exponent, e.WellFormed)
    (same : l.exponentText = l'.exponentText) : l.exponent = l'.exponent := by
  unfold exponentText at same
  cases isExponent : l.exponent with
  | none =>
    cases isExponent' : l'.exponent with
    | none => rfl
    | some e' =>
      rw [isExponent, isExponent'] at same
      cases same
  | some e =>
    cases isExponent' : l'.exponent with
    | none =>
      rw [isExponent, isExponent'] at same
      cases same
    | some e' =>
      rw [isExponent, isExponent'] at same
      exact congrArg some (Exponent.text_inj (wellFormed e isExponent) (wellFormed' e' isExponent') same)

end

theorem fraction_inj {base : ℕ} (digits : ∀ f ∈ l.fraction, Underscored (below base) f)
    (digits' : ∀ f ∈ l'.fraction, Underscored (below base) f) (stops : Stops (below base) rest)
    (stops' : Stops (below base) rest') (plain : ∀ c ∈ rest.head?, c ≠ '.') (plain' : ∀ c ∈ rest'.head?, c ≠ '.')
    (same : l.fractionText ++ rest = l'.fractionText ++ rest') : l.fraction = l'.fraction ∧ rest = rest' := by
  unfold fractionText at same
  cases isFraction : l.fraction with
  | none =>
    cases isFraction' : l'.fraction with
    | none =>
      rw [isFraction, isFraction'] at same
      exact ⟨rfl, same⟩
    | some f' =>
      rw [isFraction, isFraction'] at same
      exact absurd rfl (plain '.' (by rw [show rest = _ from same]; rfl))
  | some f =>
    cases isFraction' : l'.fraction with
    | none =>
      rw [isFraction, isFraction'] at same
      exact absurd rfl ( plain' '.' (by rw [show rest' = _ from same.symm]; rfl))
    | some f' =>
      rw [isFraction, isFraction'] at same
      obtain ⟨rfl, behind⟩ := (digits f isFraction).unique (digits' f' isFraction') (below_point base).2.2.2 stops stops'
        (List.cons.inj same).2
      exact ⟨rfl, behind⟩

/-- What is behind the first integer of a literal. -/
def afterFirst (l : Literal) : List Char :=
  match l.base with
  | none => l.fractionText ++ l.exponentText
  | some (_, sep) => sep :: (l.int ++ (l.fractionText ++ sep :: l.exponentText))

/-- The first integer of a literal: its base or its digits. -/
def first (l : Literal) : List Char := l.base.elim l.int Prod.fst

theorem text_eq (l : Literal) : l.text = l.first ++ l.afterFirst := by
  unfold text first afterFirst
  cases l.base with
  | none => rfl
  | some base => rfl

/-- The digits of a literal: those of a decimal one, or the extended ones. -/
def alphabet (l : Literal) : ℕ := if l.base.isSome then 16 else 10

section

variable (lexical : l.Lexical (below l.alphabet))
include lexical

theorem Lexical.first : Underscored (below 10) l.first := by
  unfold Literal.first
  cases isBase : l.base with
  | none =>
    have digits := lexical.int
    unfold alphabet at digits
    rw [isBase] at digits
    exact digits
  | some base => exact (lexical.base base isBase).1

theorem Lexical.stops : Stops (below 10) l.afterFirst := by
  unfold afterFirst
  cases isBase : l.base with
  | none => exact stops_fraction fun _ => stops_exponent lexical.exponent
  | some base => exact stops_separator (lexical.base base isBase).2

theorem Lexical.no_separator {c : Char} {cs : List Char}
    (isText : l.fractionText ++ l.exponentText = c :: cs) : ¬(c = '#' ∨ c = ':') := by
  unfold fractionText at isText
  cases isFraction : l.fraction with
  | none =>
    rw [isFraction] at isText
    rcases exponent_head lexical.exponent isText with rfl | rfl
    · decide
    · decide
  | some f =>
    rw [isFraction] at isText
    obtain ⟨rfl, _⟩ := List.cons.inj isText
    decide

theorem text_inj (lexical' : l'.Lexical (below l'.alphabet))
    (same : l.text = l'.text) : l = l' := by
  rw [text_eq, text_eq] at same
  obtain ⟨first, after⟩ := lexical.first.unique lexical'.first (below_point 10).2.2.2 lexical.stops lexical'.stops same
  obtain ⟨base, int, fraction, exponent⟩ := l
  obtain ⟨base', int', fraction', exponent'⟩ := l'
  have noPoint : ∀ {l : Literal}, (∀ e ∈ l.exponent, e.WellFormed) → ∀ c ∈ l.exponentText.head?, c ≠ '.' := by
    intro l wellFormed c isHead
    cases isText : l.exponentText with
    | nil =>
      rw [isText] at isHead
      cases isHead
    | cons d cs =>
      rw [isText] at isHead
      obtain rfl : d = c := by simpa using isHead
      rcases exponent_head wellFormed isText with rfl | rfl
      · decide
      · decide
  cases base with
  | none =>
    cases base' with
    | none =>
      obtain ⟨isFraction, behind⟩ := fraction_inj lexical.fraction lexical'.fraction (stops_exponent lexical.exponent)
        (stops_exponent lexical'.exponent) (noPoint lexical.exponent) (noPoint lexical'.exponent) after
      have isExponent := exponent_inj lexical.exponent lexical'.exponent behind
      obtain rfl : int = int' := first
      obtain rfl : fraction = fraction' := isFraction
      obtain rfl : exponent = exponent' := isExponent
      rfl
    | some based => exact absurd (lexical'.base based rfl).2 (lexical.no_separator after)
  | some based =>
    cases base' with
    | none => exact absurd (lexical.base based rfl).2 (lexical'.no_separator after.symm)
    | some based' =>
      obtain ⟨base, sep⟩ := based
      obtain ⟨base', sep'⟩ := based'
      obtain rfl : base = base' := first
      obtain ⟨rfl, after⟩ := List.cons.inj after
      have isSep := (lexical.base (base, sep) rfl).2
      have notPoint : ∀ {cs : List Char}, ∀ c ∈ (sep :: cs).head?, c ≠ '.' := by
        intro cs c isHead
        obtain rfl : sep = c := by simpa using isHead
        rcases isSep with rfl | rfl
        · decide
        · decide
      obtain ⟨isInt, after⟩ := lexical.int.unique lexical'.int (below_point 16).2.2.2
        (stops_fraction fun _ => stops_separator isSep) (stops_fraction fun _ => stops_separator isSep) after
      obtain ⟨isFraction, behind⟩ := fraction_inj lexical.fraction lexical'.fraction (stops_separator isSep)
        (stops_separator isSep) notPoint notPoint after
      have isExponent := exponent_inj lexical.exponent lexical'.exponent (List.cons.inj behind).2
      obtain rfl : int = int' := isInt
      obtain rfl : fraction = fraction' := isFraction
      obtain rfl : exponent = exponent' := isExponent
      rfl

end

theorem WellFormed.alphabet (wellFormed : l.WellFormed) : l.Lexical (below l.alphabet) := by
  have le : l.radix ≤ l.alphabet := by
    unfold Literal.alphabet
    cases isBase : l.base with
    | none =>
      unfold radix
      rw [isBase]
      exact Nat.le_refl 10
    | some base => exact wellFormed.high
  have mono : ∀ c, below l.radix c = true → below l.alphabet c = true := fun c => below_mono le
  exact ⟨wellFormed.lexical.base, wellFormed.lexical.int.mono mono,
    fun f isFraction => (wellFormed.lexical.fraction f isFraction).mono mono, wellFormed.lexical.exponent⟩

end Literal

end Unique

end Ghdl.Numbers
