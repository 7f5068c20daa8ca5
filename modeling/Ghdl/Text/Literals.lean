import Ghdl.System.Fallible
import Ghdl.Numbers.Literals
import Ghdl.Text.RoundTrip

/-!
# The digits of the value of an integer

What the loops of `Value_I64` read is compared with the integers of the literals: each loop ends behind the integer
in front of it, and fails where there is none.
-/

namespace Ghdl.Text

open Fallible Ghdl.Numbers

variable {s : StringBase} {pos len fuel : Nat} {c : Char} {int rest t : List Char} {val : Int}

/-- The value is not found. -/
def IsError {α : Type} (o : Outcome α) : Prop := ∃ e, o = .error e

theorem IsError.bind {α β : Type} {o : Outcome α} (f : α → Outcome β) (isError : IsError o) : IsError (o >>= f) := by
  obtain ⟨e, rfl⟩ := isError
  exact ⟨e, rfl⟩

theorem isError_error {α : Type} (e : String) : IsError (.error e : Outcome α) := ⟨e, rfl⟩

theorem IsError.not_ok {α : Type} {o : Outcome α} (isError : IsError o) (a : α) : o ≠ .ok a := by
  obtain ⟨e, rfl⟩ := isError
  exact nofun

theorem below_ten (isDigit' : isDigit c = true) : below 10 c = true ∧ extendedDigit c = some (digit c).toNat := by
  have range : '0' ≤ c ∧ c ≤ '9' := by simpa [isDigit] using isDigit'
  have value : extendedDigit c = some (digit c).toNat := by
    unfold extendedDigit
    rw [if_pos range]
    unfold digit
    have zero : '0'.toNat = 48 := rfl
    rw [zero]
    exact congrArg some (by omega)
  have bounds := digit_bounds isDigit'
  exact ⟨below_iff.mpr ⟨_, value, by omega⟩, value⟩

theorem isDigit_iff : isDigit c = true ↔ below 10 c = true := by
  refine ⟨fun isDigit' => (below_ten isDigit').1, fun small => ?_⟩
  obtain ⟨d, value, small⟩ := below_iff.mp small
  have range : '0' ≤ c ∧ c ≤ '9' := by
    unfold extendedDigit at value
    split at value
    case isTrue range => exact range
    split at value
    case isTrue range =>
      have low : 'a'.toNat ≤ c.toNat := range.1
      have first : 'a'.toNat = 97 := rfl
      rw [Option.some.injEq] at value
      omega
    split at value
    case isTrue range =>
      have low : 'A'.toNat ≤ c.toNat := range.1
      have first : 'A'.toNat = 65 := rfl
      rw [Option.some.injEq] at value
      omega
    cases value
  simpa [isDigit] using range

theorem basedDigit_eq (c : Char) : basedDigit c = (extendedDigit c).map fun d : Nat => (d : Int) := by
  unfold basedDigit extendedDigit
  split
  case isTrue range =>
    have low : '0'.toNat ≤ c.toNat := range.1
    have first : '0'.toNat = 48 := rfl
    rw [Option.map_some]
    exact congrArg some (by unfold digit; omega)
  split
  case isTrue range =>
    have low : 'a'.toNat ≤ c.toNat := range.1
    have first : 'a'.toNat = 97 := rfl
    rw [Option.map_some]
    exact congrArg some (by omega)
  split
  case isTrue range =>
    have low : 'A'.toNat ≤ c.toNat := range.1
    have first : 'A'.toNat = 65 := rfl
    rw [Option.map_some]
    exact congrArg some (by omega)
  rfl

theorem digitsOf_cons {d : Nat} {cs : List Char} (value : extendedDigit c = some d) :
    digitsOf (c :: cs) = d :: digitsOf cs := List.filterMap_cons_some value

theorem digitsOf_underscore (cs : List Char) : digitsOf ('_' :: cs) = digitsOf cs := List.filterMap_cons_none rfl

section Decimal

variable {step : Int → Int → Int} {stops : Char → Bool}

/-- What the loop does with digits: each of them is a step. -/
def stepped (step : Int → Int → Int) (int : List Char) (val : Int) : Int :=
  (digitsOf int).foldl (fun (val : Int) (d : Nat) => step val (d : Int)) val

theorem stepped_cons {cs : List Char} (isDigit' : isDigit c = true) :
    stepped step (c :: cs) val = stepped step cs (step val (digit c)) := by
  have bounds := digit_bounds isDigit'
  have value : (((digit c).toNat : Nat) : Int) = digit c := Int.toNat_of_nonneg bounds.1
  unfold stepped
  rw [digitsOf_cons (below_ten isDigit').2, List.foldl_cons, value]

theorem digitsLoop_digit (isDigit' : isDigit (s pos) = true) (inside : pos + 1 < len) (other : s (pos + 1) ≠ '_') :
    digitsLoop s len step stops (fuel + 1) pos (s pos) val =
      if stops (s (pos + 1)) then .ok (pos + 1, s (pos + 1), step val (digit (s pos)))
      else if isWhitespace (s (pos + 1)) then .ok (pos + 2, s (pos + 1), step val (digit (s pos)))
      else digitsLoop s len step stops fuel (pos + 1) (s (pos + 1)) (step val (digit (s pos))) := by
  conv_lhs => unfold digitsLoop
  rw [if_pos isDigit']
  dsimp only
  rw [if_neg (Nat.not_le.mpr inside), if_neg other]

theorem digitsLoop_underscore (isDigit' : isDigit (s pos) = true) (inside : pos + 1 < len)
    (underscore : s (pos + 1) = '_') : digitsLoop s len step stops (fuel + 1) pos (s pos) val =
      if len ≤ pos + 2 then .error "'value: trailing underscore"
      else digitsLoop s len step stops fuel (pos + 2) (s (pos + 2)) (step val (digit (s pos))) := by
  conv_lhs => unfold digitsLoop
  rw [if_pos isDigit']
  dsimp only
  rw [if_neg (Nat.not_le.mpr inside), if_pos underscore]

theorem digitsLoop_other (other : isDigit c = false) : IsError (digitsLoop s len step stops fuel pos c val) := by
  cases fuel with
  | zero => exact isError_error _
  | succ fuel =>
    unfold digitsLoop
    rw [other]
    exact isError_error _

theorem digitsLoop_int (digits : Underscored (below 10) int) (behind : Stops (below 10) rest)
    (holds : At s pos (int ++ rest)) (enough : int.length ≤ fuel)
    (length : len = pos + (int ++ rest).length) (notStop : ∀ d, isDigit d = true → stops d = false) :
    ∃ c, digitsLoop s len step stops fuel pos (s pos) val = if rest = [] then .ok (len, c, stepped step int val)
      else if stops (s (pos + int.length)) then .ok (pos + int.length, s (pos + int.length), stepped step int val)
      else if isWhitespace (s (pos + int.length)) then
        .ok (pos + int.length + 1, s (pos + int.length), stepped step int val)
      else .error "'value: decimal digit expected" := by
  induction digits generalizing pos val fuel with
  | @single c digit =>
    have isDigit' : isDigit (s pos) = true := by
      rw [At.head (l := rest) holds]
      exact isDigit_iff.mpr digit
    have isChar : s pos = c := At.head (l := rest) holds
    obtain ⟨fuel, rfl⟩ := fuel_succ enough
    cases rest with
    | nil =>
      refine ⟨s pos, ?_⟩
      rw [if_pos rfl]
      unfold digitsLoop
      rw [if_pos isDigit']
      dsimp only
      have last : len = pos + 1 := length
      rw [if_pos (by omega), isChar, stepped_cons (isDigit_iff.mpr digit), last]
      rfl
    | cons d rest =>
      have isNext : s (pos + 1) = d := At.head (At.tail (l := d :: rest) holds)
      obtain ⟨notDigit, other⟩ := behind d rfl
      have inside : pos + 1 < len := by
        rw [length]
        show pos + 1 < pos + (rest.length + 1 + 1)
        omega
      have failed : isDigit d = false := by
        rw [Bool.eq_false_iff]
        intro isDigit''
        rw [isDigit_iff.mp isDigit''] at notDigit
        cases notDigit
      refine ⟨c, ?_⟩
      rw [digitsLoop_digit isDigit' inside (by rw [isNext]; exact other), if_neg (List.cons_ne_nil d rest),
        isChar, stepped_cons (isDigit_iff.mpr digit), List.length_singleton]
      have error : digitsLoop s len step stops fuel (pos + 1) (s (pos + 1)) (step val (Text.digit c)) =
          .error "'value: decimal digit expected" := by
        rw [isNext]
        cases fuel with
        | zero => rfl
        | succ fuel =>
          unfold digitsLoop
          rw [failed]
          rfl
      rw [error]
      rfl
  | @digit c cs digit inner ih =>
    have isDigit' : isDigit (s pos) = true := by
      rw [At.head (l := cs ++ rest) holds]
      exact isDigit_iff.mpr digit
    have isChar : s pos = c := At.head (l := cs ++ rest) holds
    obtain ⟨d, ds, rfl, next⟩ := inner.head
    have isNext : s (pos + 1) = d := At.head (At.tail (l := d :: ds ++ rest) holds)
    have nextDigit : isDigit d = true := isDigit_iff.mpr next
    obtain ⟨fuel, rfl⟩ := fuel_succ enough
    have inside : pos + 1 < len := by
      rw [length, List.length_append, List.length_cons, List.length_cons]
      omega
    have other : d ≠ '_' := by
      rintro rfl
      exact absurd nextDigit (by decide)
    obtain ⟨e, result⟩ := @ih (pos + 1) fuel (step val (Text.digit c)) (At.tail (l := d :: ds ++ rest) holds)
      (Nat.le_of_succ_le_succ enough)
      (by rw [length, List.length_append, List.length_append, List.length_cons]; omega)
    refine ⟨e, ?_⟩
    have shift : pos + 1 + (d :: ds).length = pos + (c :: d :: ds).length := by
      rw [List.length_cons, List.length_cons, List.length_cons]
      omega
    rw [shift, isNext] at result
    rw [digitsLoop_digit isDigit' inside (by rw [isNext]; exact other), isNext, notStop d nextDigit,
      isDigit_visible nextDigit, if_neg Bool.false_ne_true, if_neg Bool.false_ne_true, isChar, result,
      stepped_cons (isDigit_iff.mpr digit)]
  | @underscore c cs digit inner ih =>
    have isDigit' : isDigit (s pos) = true := by
      rw [At.head (l := '_' :: cs ++ rest) holds]
      exact isDigit_iff.mpr digit
    have isChar : s pos = c := At.head (l := '_' :: cs ++ rest) holds
    have behindIt : At s (pos + 1) ('_' :: cs ++ rest) := At.tail holds
    have isNext : s (pos + 1) = '_' := At.head (l := cs ++ rest) behindIt
    obtain ⟨fuel, rfl⟩ := fuel_succ enough
    have some' : 0 < cs.length := by
      obtain ⟨d, ds, rfl, _⟩ := inner.head
      exact Nat.succ_pos _
    have size : len = pos + (cs.length + 1 + 1 + rest.length) := by
      rw [length, List.length_append, List.length_cons, List.length_cons]
    have inside : pos + 1 < len := by omega
    obtain ⟨e, result⟩ := @ih (pos + 2) fuel (step val (Text.digit c)) (At.tail (l := cs ++ rest) behindIt)
      (by rw [List.length_cons, List.length_cons] at enough; omega)
      (by rw [size, List.length_append]; omega)
    refine ⟨e, ?_⟩
    rw [digitsLoop_underscore isDigit' inside isNext, if_neg (by omega), isChar, result,
      stepped_cons (isDigit_iff.mpr digit), List.length_cons, List.length_cons]
    have shift : pos + 2 + cs.length = pos + (cs.length + 1 + 1) := by omega
    rw [shift]
    have same : stepped step ('_' :: cs) (step val (Text.digit c)) = stepped step cs (step val (Text.digit c)) := by
      unfold stepped
      rw [digitsOf_underscore]
    rw [same]

theorem digitsLoop_none (none : munch (below 10) t = none) (some' : t ≠ []) (holds : At s pos t)
    (length : len = pos + t.length) (notStop : ∀ d, isDigit d = true → stops d = false) :
    IsError (digitsLoop s len step stops fuel pos (s pos) val) := by
  fun_induction munch (below 10) t generalizing pos val fuel with
  | case1 => exact absurd rfl some'
  | case2 | case6 => cases none
  | case3 c other | case7 c d cs other =>
    rw [holds.head]
    exact digitsLoop_other (by rw [Bool.eq_false_iff]; exact fun isDigit' => other (isDigit_iff.mp isDigit'))
  | case4 c cs digit ih =>
    have isDigit' : isDigit (s pos) = true := by
      rw [holds.head]
      exact isDigit_iff.mpr digit
    cases fuel with
    | zero => exact isError_error _
    | succ fuel =>
      have size : len = pos + (cs.length + 1 + 1) := length
      rw [digitsLoop_underscore isDigit' (by omega) holds.tail.head]
      by_cases last : len ≤ pos + 2
      · rw [if_pos last]
        exact isError_error _
      rw [if_neg last]
      have more : cs ≠ [] := by
        rintro rfl
        exact last (by rw [size]; exact Nat.le_refl _)
      exact ih (Option.map_eq_none_iff.mp none) more holds.tail.tail (by omega)
  | case5 c d cs digit other next ih =>
    have isDigit' : isDigit (s pos) = true := by
      rw [holds.head]
      exact isDigit_iff.mpr digit
    have nextDigit : isDigit d = true := isDigit_iff.mpr next
    have isNext : s (pos + 1) = d := holds.tail.head
    cases fuel with
    | zero => exact isError_error _
    | succ fuel =>
      have size : len = pos + (cs.length + 1 + 1) := length
      rw [digitsLoop_digit isDigit' (by omega) (by rw [isNext]; exact other), isNext, notStop d nextDigit,
        isDigit_visible nextDigit, if_neg Bool.false_ne_true, if_neg Bool.false_ne_true, ← isNext]
      exact ih (Option.map_eq_none_iff.mp none) (List.cons_ne_nil d cs) holds.tail (by rw [List.length_cons]; omega)

end Decimal

section Based

variable {base : Nat} {sep : Char}

/-- A digit of a based literal accumulates negatively. -/
def accumulateIn (base val d : Int) : Int := wrap 64 (wrap 64 (val * base) - d)

theorem stepped_based {step : Int → Int → Int} {d : Nat} {cs : List Char} (value : extendedDigit c = some d) :
    stepped step (c :: cs) val = stepped step cs (step val d) := by
  unfold stepped
  rw [digitsOf_cons value, List.foldl_cons]

theorem basedLoop_other (other : below base c = false) : IsError (basedLoop s len base sep fuel pos c val) := by
  cases fuel with
  | zero => exact isError_error _
  | succ fuel =>
    unfold basedLoop
    rw [basedDigit_eq]
    cases value : extendedDigit c with
    | none => exact isError_error _
    | some d =>
      have large : ¬d < base := fun small => by
        rw [below_iff.mpr ⟨d, value, small⟩] at other
        cases other
      have large' : (base : Int) ≤ (d : Int) := Int.ofNat_le.mpr (Nat.le_of_not_lt large)
      show IsError (if (base : Int) ≤ (d : Int) then _ else _)
      rw [if_pos large']
      exact isError_error _

theorem basedLoop_digit {d : Nat} (value : extendedDigit (s pos) = some d) (small : d < base) :
    basedLoop s len base sep (fuel + 1) pos (s pos) val =
      if len ≤ pos + 1 then .error "'value: missing end sign number"
      else if s (pos + 1) = '#' ∨ s (pos + 1) = ':' then
        if s (pos + 1) ≠ sep then .error "'value: sign number mismatch"
        else .ok (pos + 2, s (pos + 1), accumulateIn base val d) else if s (pos + 1) = '_' then
        if len ≤ pos + 2 then .error "'value: no character after underscore"
        else basedLoop s len base sep fuel (pos + 2) (s (pos + 2)) (accumulateIn base val d)
      else basedLoop s len base sep fuel (pos + 1) (s (pos + 1)) (accumulateIn base val d) := by
  conv_lhs => unfold basedLoop
  rw [basedDigit_eq, value]
  have small' : ¬(base : Int) ≤ (d : Int) := Int.not_le.mpr (Int.ofNat_lt.mpr small)
  show (if (base : Int) ≤ (d : Int) then _ else _) = _
  rw [if_neg small']
  rfl

theorem below_separator (digit : below base c = true) : ¬(c = '#' ∨ c = ':') := by
  rintro (rfl | rfl)
  · rw [(Literal.below_point base).2.1] at digit
    cases digit
  · rw [(Literal.below_point base).2.2.1] at digit
    cases digit

theorem below_underscore (digit : below base c = true) : c ≠ '_' := by
  rintro rfl
  rw [(Literal.below_point base).2.2.2] at digit
  cases digit

theorem basedLoop_int (isSep : sep = '#' ∨ sep = ':') (digits : Underscored (below base) int)
    (behind : Stops (below base) rest) (holds : At s pos (int ++ rest)) (enough : int.length ≤ fuel)
    (length : len = pos + (int ++ rest).length) : if rest.head? = some sep then
      basedLoop s len base sep fuel pos (s pos) val =
        .ok (pos + int.length + 1, sep, stepped (accumulateIn base) int val)
    else IsError (basedLoop s len base sep fuel pos (s pos) val) := by
  induction digits generalizing pos val fuel with
  | @single c digit =>
    obtain ⟨d, value, small⟩ := below_iff.mp digit
    have isChar : s pos = c := At.head (l := rest) holds
    obtain ⟨fuel, rfl⟩ := fuel_succ enough
    rw [basedLoop_digit (by rw [isChar]; exact value) small, stepped_based value]
    cases rest with
    | nil =>
      have last : len ≤ pos + 1 := Nat.le_of_eq length
      rw [if_neg nofun, if_pos last]
      exact isError_error _
    | cons e rest =>
      have isNext : s (pos + 1) = e := At.head (At.tail (l := e :: rest) holds)
      have inside : pos + 1 < len := by
        rw [length]
        show pos + 1 < pos + (rest.length + 1 + 1)
        omega
      rw [if_neg (Nat.not_le.mpr inside), isNext]
      obtain ⟨other, underscore⟩ := behind e rfl
      by_cases closes : e = sep
      · rw [if_pos (by rw [closes]; rfl), closes, if_pos isSep, if_neg (not_not.mpr rfl)]
        rfl
      rw [if_neg (by rw [List.head?_cons, Option.some.injEq]; exact closes)]
      by_cases another : e = '#' ∨ e = ':'
      · rw [if_pos another, if_pos closes]
        exact isError_error _
      · rw [if_neg another, if_neg underscore]
        exact basedLoop_other other
  | @digit c cs digit inner ih =>
    obtain ⟨d, value, small⟩ := below_iff.mp digit
    have isChar : s pos = c := At.head (l := cs ++ rest) holds
    obtain ⟨e, es, rfl, next⟩ := inner.head
    have isNext : s (pos + 1) = e := At.head (At.tail (l := e :: es ++ rest) holds)
    obtain ⟨fuel, rfl⟩ := fuel_succ enough
    have inside : pos + 1 < len := by
      rw [length, List.length_append, List.length_cons, List.length_cons]
      omega
    have result := @ih (pos + 1) fuel (accumulateIn base val d) (At.tail (l := e :: es ++ rest) holds)
      (Nat.le_of_succ_le_succ enough)
      (by rw [length, List.length_append, List.length_append, List.length_cons]; omega)
    have shift : pos + 1 + (e :: es).length = pos + (c :: e :: es).length := by
      rw [List.length_cons, List.length_cons, List.length_cons]
      omega
    rw [shift, isNext] at result
    rw [basedLoop_digit (by rw [isChar]; exact value) small, stepped_based value, if_neg (Nat.not_le.mpr inside), isNext,
      if_neg (below_separator next), if_neg (below_underscore next)]
    exact result
  | @underscore c cs digit inner ih =>
    obtain ⟨d, value, small⟩ := below_iff.mp digit
    have isChar : s pos = c := At.head (l := '_' :: cs ++ rest) holds
    have behindIt : At s (pos + 1) ('_' :: cs ++ rest) := At.tail holds
    have isNext : s (pos + 1) = '_' := At.head (l := cs ++ rest) behindIt
    obtain ⟨fuel, rfl⟩ := fuel_succ enough
    have some' : 0 < cs.length := by
      obtain ⟨d, ds, rfl, _⟩ := inner.head
      exact Nat.succ_pos _
    have size : len = pos + (cs.length + 1 + 1 + rest.length) := by
      rw [length, List.length_append, List.length_cons, List.length_cons]
    have inside : ¬len ≤ pos + 1 := by omega
    have inside' : ¬len ≤ pos + 2 := by omega
    have result := @ih (pos + 2) fuel (accumulateIn base val d) (At.tail (l := cs ++ rest) behindIt)
      (by rw [List.length_cons, List.length_cons] at enough; omega)
      (by rw [size, List.length_append]; omega)
    have shift : pos + 2 + cs.length = pos + (c :: '_' :: cs).length := by
      rw [List.length_cons, List.length_cons]
      omega
    have same : stepped (accumulateIn base) ('_' :: cs) (accumulateIn base val d) =
        stepped (accumulateIn base) cs (accumulateIn base val d) := by
      unfold stepped
      rw [digitsOf_underscore]
    rw [shift] at result
    rw [basedLoop_digit (by rw [isChar]; exact value) small, stepped_based value, same, if_neg inside, isNext,
      if_neg (show ¬('_' = '#' ∨ '_' = ':') by decide), if_pos (show '_' = '_' from rfl), if_neg inside']
    exact result

theorem basedLoop_none (none : munch (below base) t = none) (some' : t ≠ []) (holds : At s pos t)
    (length : len = pos + t.length) : IsError (basedLoop s len base sep fuel pos (s pos) val) := by
  fun_induction munch (below base) t generalizing pos val fuel with
  | case1 => exact absurd rfl some'
  | case2 | case6 => cases none
  | case3 c other | case7 c e cs other =>
    rw [holds.head]
    exact basedLoop_other (Bool.eq_false_iff.mpr other)
  | case4 c cs digit ih =>
    obtain ⟨d, value, small⟩ := below_iff.mp digit
    cases fuel with
    | zero => exact isError_error _
    | succ fuel =>
      have size : len = pos + (cs.length + 1 + 1) := length
      rw [basedLoop_digit (by rw [holds.head]; exact value) small, if_neg (by omega), holds.tail.head,
        if_neg (by decide), if_pos rfl]
      by_cases last : len ≤ pos + 2
      · rw [if_pos last]
        exact isError_error _
      rw [if_neg last]
      have more : cs ≠ [] := by
        rintro rfl
        exact last (by rw [size]; exact Nat.le_refl _)
      exact ih (Option.map_eq_none_iff.mp none) more holds.tail.tail (by omega)
  | case5 c e cs digit other next ih =>
    obtain ⟨d, value, small⟩ := below_iff.mp digit
    have isNext : s (pos + 1) = e := holds.tail.head
    cases fuel with
    | zero => exact isError_error _
    | succ fuel =>
      have size : len = pos + (cs.length + 1 + 1) := length
      rw [basedLoop_digit (by rw [holds.head]; exact value) small, if_neg (by omega), isNext,
        if_neg (below_separator next), if_neg other, ← isNext]
      exact ih (Option.map_eq_none_iff.mp none) (List.cons_ne_nil e cs) holds.tail (by rw [List.length_cons]; omega)

end Based

section Wrap

variable {bits : Nat} {m n : Int}

theorem stepped_accumulateIn (base : Nat) (int : List Char) (n : Int) : stepped (accumulateIn base) int (wrap 64 n) =
      wrap 64 (n * (base : Int) ^ (digitsOf int).length - numeral base (digitsOf int)) := by
  unfold stepped
  induction digitsOf int generalizing n with
  | nil => simp
  | cons d ds ih =>
    have next : accumulateIn base (wrap 64 n) d = wrap 64 (n * base - d) := by
      unfold accumulateIn wrap
      rw [Int.bmod_mul_bmod, Int.bmod_sub_bmod]
    rw [List.foldl_cons, next, ih, numeral_cons, List.length_cons]
    refine congrArg (wrap 64) ?_
    push_cast
    ring

/-- A digit of an exponent. -/
def accumulateExponent (exp d : Int) : Int := wrap 32 (wrap 32 (exp * 10) + d)

theorem stepped_exponent (int : List Char) (n : Int) : stepped accumulateExponent int (wrap 32 n) =
      wrap 32 (n * 10 ^ (digitsOf int).length + numeral 10 (digitsOf int)) := by
  unfold stepped
  induction digitsOf int generalizing n with
  | nil => simp
  | cons d ds ih =>
    have next : accumulateExponent (wrap 32 n) d = wrap 32 (n * 10 + d) := by
      unfold accumulateExponent wrap
      rw [Int.bmod_mul_bmod, Int.bmod_add_bmod]
    rw [List.foldl_cons, next, ih, numeral_cons, List.length_cons]
    refine congrArg (wrap 32) ?_
    push_cast
    ring

theorem scale_spec (fuel : Nat) {exp : Nat} (base : Int) (enough : exp < 2 ^ fuel) :
    scale fuel exp (wrap 64 base) (wrap 64 n) = wrap 64 (n * base ^ exp) := by
  induction fuel generalizing exp base n with
  | zero =>
    obtain rfl : exp = 0 := by omega
    simp [scale]
  | succ fuel ih =>
    unfold scale
    by_cases zero : exp = 0
    · subst zero
      simp
    rw [if_pos (by omega)]
    have half : exp / 2 < 2 ^ fuel := by
      rw [Nat.pow_succ] at enough
      omega
    have cast : ((exp : Int) / 2) = ((exp / 2 : Nat) : Int) := by omega
    have square : wrap 64 (wrap 64 base * wrap 64 base) = wrap 64 (base * base) := by
      unfold wrap
      rw [Int.bmod_mul_bmod, Int.mul_bmod_bmod]
    have product : wrap 64 (wrap 64 n * wrap 64 base) = wrap 64 (n * base) := by
      unfold wrap
      rw [Int.bmod_mul_bmod, Int.mul_bmod_bmod]
    rw [cast, square, product]
    by_cases odd : (exp : Int) % 2 = 1
    · have split : exp = 2 * (exp / 2) + 1 := by omega
      rw [if_pos odd, ih (base * base) half]
      refine congrArg (wrap 64) ?_
      conv_rhs => rw [split, pow_succ, pow_mul]
      ring
    have split : exp = 2 * (exp / 2) := by omega
    rw [if_neg odd, ih (base * base) half]
    refine congrArg (wrap 64) ?_
    conv_rhs => rw [split, pow_mul]
    ring

theorem scale_zero (fuel : Nat) (exp base : Int) : scale fuel exp base 0 = 0 := by
  induction fuel generalizing exp base with
  | zero => rfl
  | succ fuel ih =>
    unfold scale
    have zero : (if exp % 2 = 1 then wrap 64 (0 * base) else 0) = 0 := by
      rw [Int.zero_mul]
      split
      · rfl
      · rfl
    rw [zero, ih]
    split
    · rfl
    · rfl

end Wrap

end Ghdl.Text
