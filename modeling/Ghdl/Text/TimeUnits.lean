import Ghdl.Numbers.Decimals
import Ghdl.Text.Images

/-!
# Times in a unit

`To_String` of a time and a unit divides both by ten until nothing is left of them, writes the digits of the time from
the last one on, and the point where the unit has become one. That is the quotient when the unit is a power of ten.
-/

namespace Ghdl.Text

open Numbers

/-- `String_Time_Unit'Length`. -/
def stringTimeUnitLength : Nat := 22

/-- What `To_String` has written, from P + 1 on, and HAS_DIGITS. -/
structure UnitText where
  hasDigits : Bool
  str : List Char
deriving DecidableEq, Repr

/-- A character is written at P. -/
def UnitText.write (t : UnitText) (c : Char) : Option UnitText :=
  if t.str.length < stringTimeUnitLength then some { t with str := c :: t.str } else none

/-- The unit has become one: a point, unless nothing is behind it. -/
def unitPoint (u : Int) (t : UnitText) : Option UnitText :=
  if u = 1 then if t.hasDigits then t.write '.' else some { t with hasDigits := true } else some t

/-- The last digit of V, unless it is a trailing zero. -/
def unitDigit (v : Int) (t : UnitText) : Option UnitText :=
  let d := (-(v.tmod 10)).toNat
  if d ≠ 0 ∨ t.hasDigits then { t with hasDigits := true }.write (digitChar d) else some t

/-- The loop of `To_String`: V is not positive. -/
def timeUnitLoop : Nat → Int → Int → UnitText → Option UnitText
  | 0, _, _, _ => none
  | fuel + 1, v, u, t => do
    let t ← unitPoint u t
    let t ← unitDigit v t
    let u := u.tdiv 10
    let v := v.tdiv 10
    if v = 0 ∧ u = 0 then some t else timeUnitLoop fuel v u t

/-- Nothing has been written: a zero. -/
def unitZero (t : UnitText) : Option UnitText := if t.hasDigits then some t else t.write '0'

/-- The sign of the value. -/
def unitSign (value : Int) (t : UnitText) : Option UnitText := if value < 0 then t.write '-' else some t

/-- `To_String` of a time and a unit. A number of 64 bits has no more than 19 digits. -/
def timeUnitToString (value unit : Int) : Option (List Char) := do
  let v := if value > 0 then -value else value
  let t ← timeUnitLoop 19 v unit ⟨false, []⟩
  let t ← unitZero t
  let t ← unitSign value t
  some t.str

/-- `Ghdl_Time_To_String_Unit`: the name is that of the first unit with the value. -/
def timeToStringUnit (phys : PhysicalType) (val unit : Int) : Option (List Char) := do
  let name ← phys.units.find? fun u => u.value = unit
  let str ← timeUnitToString val unit
  some (str ++ ' ' :: name.name)

variable {a u n k fuel : ℕ} {f : List ℕ} {s : List Char}

theorem write_ok {t : UnitText} (c : Char) (room : t.str.length < 22) : t.write c = some { t with str := c :: t.str } :=
  if_pos room

theorem unitDigit_nat (a : ℕ) (t : UnitText) : unitDigit (-(a : Int)) t =
    if a % 10 ≠ 0 ∨ t.hasDigits = true then { t with hasDigits := true }.write (digitChar (a % 10)) else some t := by
  have digit : (-((-(a : Int)).tmod 10)).toNat = a % 10 := by
    rw [Int.neg_tmod, Int.tmod_eq_emod_of_nonneg (Int.natCast_nonneg a)]
    omega
  unfold unitDigit
  rw [digit]

theorem timeUnitLoop_succ (fuel a u : ℕ) (t : UnitText) : timeUnitLoop (fuel + 1) (-(a : Int)) u t =
    (unitPoint u t).bind fun t => (unitDigit (-(a : Int)) t).bind fun t =>
      if a / 10 = 0 ∧ u / 10 = 0 then some t else timeUnitLoop fuel (-((a / 10 : ℕ) : Int)) ((u / 10 : ℕ) : Int) t := by
  have left : (-(a : Int)).tdiv 10 = -((a / 10 : ℕ) : Int) := by
    rw [Int.neg_tdiv, Int.tdiv_eq_ediv_of_nonneg (Int.natCast_nonneg a)]
    rfl
  have unit : (u : Int).tdiv 10 = ((u / 10 : ℕ) : Int) := by
    rw [Int.tdiv_eq_ediv_of_nonneg (Int.natCast_nonneg u)]
    rfl
  have ends : (-((a / 10 : ℕ) : Int) = 0 ∧ ((u / 10 : ℕ) : Int) = 0) ↔ a / 10 = 0 ∧ u / 10 = 0 := by omega
  conv_lhs => unfold timeUnitLoop
  dsimp only
  rw [left, unit]
  simp only [ends]
  rfl

theorem unitDigit_write {t : UnitText} (shown : a % 10 ≠ 0 ∨ t.hasDigits = true) (room : t.str.length < 22) :
    unitDigit (-(a : Int)) t = some ⟨true, digitChar (a % 10) :: t.str⟩ := by
  rw [unitDigit_nat, if_pos shown]
  exact write_ok (t := { t with hasDigits := true }) _ room

theorem unitDigit_skip {t : UnitText} (zero : a % 10 = 0) (none : t.hasDigits = false) :
    unitDigit (-(a : Int)) t = some t := by
  rw [unitDigit_nat, if_neg]
  rintro (other | some)
  · exact other zero
  · exact absurd (none.symm.trans some) (by decide)

theorem unitPoint_other {t : UnitText} (other : u ≠ 1) : unitPoint (u : Int) t = some t := by
  have other' : (u : Int) ≠ 1 := by omega
  exact if_neg other'

theorem div_lt_pow (small : a < 10 ^ (n + 1)) : a / 10 < 10 ^ n := by
  rw [Nat.pow_succ] at small
  exact Nat.div_lt_of_lt_mul (by omega)

theorem timeUnitLoop_int (small : a < 10 ^ n) (positive : 0 < n) (enough : n ≤ fuel) (room : s.length + n ≤ 22) :
    ∃ ds : List ℕ, timeUnitLoop fuel (-(a : Int)) (0 : ℕ) ⟨true, s⟩ = some ⟨true, ds.map digitChar ++ s⟩ ∧ ds ≠ [] ∧
      (∀ d ∈ ds, d < 10) ∧ numeral 10 ds = a ∧ ds.length ≤ n := by
  induction n generalizing a fuel s with
  | zero => exact absurd positive (Nat.lt_irrefl 0)
  | succ n ih =>
    obtain ⟨fuel, rfl⟩ : ∃ rest, fuel = rest + 1 := ⟨fuel - 1, by omega⟩
    have digit : a % 10 < 10 := Nat.mod_lt a (by decide)
    rw [timeUnitLoop_succ, unitPoint_other (by decide), Option.bind_some,
      unitDigit_write (Or.inr rfl) (show s.length < 22 by omega), Option.bind_some]
    by_cases last : a / 10 = 0
    · rw [if_pos ⟨last, rfl⟩]
      refine ⟨[a % 10], rfl, by simp, fun d inside => ?_, ?_, by simp⟩
      · rw [List.mem_singleton.mp inside]
        exact digit
      · rw [numeral_cons, numeral_nil, List.length_nil]
        omega
    have more : 0 < n := by
      rcases Nat.eq_zero_or_pos n with rfl | more
      · omega
      · exact more
    obtain ⟨ds, run, nonempty, digits, value, length⟩ :=
      @ih (a / 10) fuel (digitChar (a % 10) :: s) (div_lt_pow small) more (by omega) (by rw [List.length_cons]; omega)
    rw [if_neg fun both => last both.1]
    refine ⟨ds ++ [a % 10], ?_, by simp, fun d inside => ?_, ?_, ?_⟩
    · rw [show (0 / 10 : ℕ) = 0 from rfl, run]
      simp
    · rcases List.mem_append.mp inside with inside | inside
      · exact digits d inside
      · rw [List.mem_singleton.mp inside]
        exact digit
    · rw [numeral_append, value, numeral_cons, numeral_nil, List.length_singleton, List.length_nil]
      omega
    · rw [List.length_append, List.length_singleton]
      omega

theorem timeUnitLoop_one (fuel : ℕ) (v : Int) (t : UnitText) :
    timeUnitLoop (fuel + 1) v 1 t = (unitPoint 1 t).bind fun t => timeUnitLoop (fuel + 1) v 0 t := by
  conv_lhs => unfold timeUnitLoop
  cases point : unitPoint 1 t with
  | none => rfl
  | some t' =>
    rw [Option.bind_some]
    conv_rhs => unfold timeUnitLoop
    rfl

/-- What is behind the point: digits that don't end in a zero. -/
structure Behind (f : List ℕ) : Prop where
  digits : ∀ d ∈ f, d < 10
  trimmed : f.getLast? ≠ some 0

/-- The text behind the point. -/
def behind (f : List ℕ) : UnitText := ⟨f ≠ [], f.map digitChar⟩

theorem Behind.cons (isBehind : Behind f) {d : ℕ} (small : d < 10) (shown : d ≠ 0 ∨ f ≠ []) : Behind (d :: f) := by
  refine ⟨fun e inside => ?_, ?_⟩
  · rcases List.mem_cons.mp inside with rfl | inside
    · exact small
    · exact isBehind.digits e inside
  cases f with
  | nil =>
    rcases shown with other | other
    · simpa using other
    · exact absurd rfl other
  | cons e f =>
    rw [List.getLast?_cons_cons]
    exact isBehind.trimmed

theorem unitDigit_behind (isBehind : Behind f) (a : ℕ) (room : f.length < 22) :
    ∃ f', unitDigit (-(a : Int)) (behind f) = some (behind f') ∧ Behind f' ∧ f'.length ≤ f.length + 1 ∧
      (f' = a % 10 :: f ∨ a % 10 = 0 ∧ f = [] ∧ f' = []) := by
  by_cases shown : a % 10 ≠ 0 ∨ f ≠ []
  · refine ⟨a % 10 :: f, ?_, isBehind.cons (Nat.mod_lt a (by decide)) shown, Nat.le_refl _, Or.inl rfl⟩
    rw [unitDigit_write (t := behind f) (by simpa [behind] using shown) (by simpa [behind] using room)]
    simp [behind]
  have zero : a % 10 = 0 := by
    by_contra other
    exact shown (Or.inl other)
  have empty : f = [] := by
    by_contra other
    exact shown (Or.inr other)
  subst empty
  exact ⟨[], unitDigit_skip zero rfl, isBehind, Nat.le_succ _, Or.inr ⟨zero, rfl, rfl⟩⟩

/-- The number that is left, with the digits behind the point. -/
def pending (a : ℕ) (f : List ℕ) : ℚ := a + numeral 10 f / 10 ^ f.length

theorem pending_div {f' : List ℕ} (shown : f' = a % 10 :: f ∨ a % 10 = 0 ∧ f = [] ∧ f' = []) :
    pending (a / 10) f' = pending a f / 10 := by
  have split : (a : ℚ) = 10 * (a / 10 : ℕ) + (a % 10 : ℕ) := by exact_mod_cast (Nat.div_add_mod a 10).symm
  unfold pending
  rcases shown with rfl | ⟨zero, rfl, rfl⟩
  · rw [numeral_cons, List.length_cons, pow_succ]
    push_cast
    rw [split]
    field_simp
    ring
  · rw [numeral_nil, split, zero]
    push_cast
    ring

theorem timeUnitLoop_point (isBehind : Behind f) (low : 10 ^ k ≤ u) (high : u < 2 * 10 ^ k) (small : a < 10 ^ n)
    (within : u < 10 ^ n) (enough : n ≤ fuel) (room : f.length + n < 22) :
    ∃ ds f' : List ℕ, timeUnitLoop fuel (-(a : Int)) u (behind f) =
        some ⟨true, ds.map digitChar ++ if f' = [] then [] else '.' :: f'.map digitChar⟩ ∧
      ds ≠ [] ∧ (∀ d ∈ ds, d < 10) ∧ Behind f' ∧ pending (numeral 10 ds) f' = pending a f / 10 ^ k ∧
      ds.length + f'.length ≤ f.length + n := by
  induction k generalizing a u n f fuel with
  | zero =>
    obtain rfl : u = 1 := by omega
    have positive : 0 < n := by
      rcases Nat.eq_zero_or_pos n with rfl | positive
      · omega
      · exact positive
    obtain ⟨fuel, rfl⟩ : ∃ rest, fuel = rest + 1 := ⟨fuel - 1, by omega⟩
    have point : unitPoint 1 (behind f) = some ⟨true, if f = [] then [] else '.' :: f.map digitChar⟩ := by
      by_cases empty : f = []
      · rw [empty]
        rfl
      have some' : (behind f).hasDigits = true := decide_eq_true empty
      rw [if_neg empty]
      unfold unitPoint
      rw [if_pos rfl, if_pos some', write_ok _ (show (f.map digitChar).length < 22 by rw [List.length_map]; omega), some']
      rfl
    have length : (if f = [] then [] else '.' :: f.map digitChar).length ≤ f.length + 1 := by
      split
      · exact Nat.zero_le _
      · rw [List.length_cons, List.length_map]
    obtain ⟨ds, run, nonempty, digits, value, count⟩ :=
      timeUnitLoop_int (s := if f = [] then [] else '.' :: f.map digitChar) small positive enough (by omega)
    refine ⟨ds, f, ?_, nonempty, digits, isBehind, ?_, by omega⟩
    · rw [Nat.cast_one, timeUnitLoop_one, point, Option.bind_some]
      exact run
    · rw [value, pow_zero, div_one]
  | succ k ih =>
    rw [Nat.pow_succ] at low high
    have unit : 10 ^ k ≤ u / 10 ∧ u / 10 < 2 * 10 ^ k := by omega
    have positive : 0 < 10 ^ k := Nat.pow_pos (by decide)
    obtain ⟨n, rfl⟩ : ∃ m, n = m + 1 := by
      cases n with
      | zero => omega
      | succ m => exact ⟨m, rfl⟩
    obtain ⟨fuel, rfl⟩ : ∃ rest, fuel = rest + 1 := ⟨fuel - 1, by omega⟩
    obtain ⟨f₁, shown, isBehind₁, length₁, cases₁⟩ := unitDigit_behind isBehind a (by omega)
    obtain ⟨ds, f', run, nonempty, digits, isBehind', value, count⟩ :=
      @ih (a / 10) (u / 10) n fuel f₁ isBehind₁ unit.1 unit.2 (div_lt_pow small) (div_lt_pow within) (by omega) (by omega)
    refine ⟨ds, f', ?_, nonempty, digits, isBehind', ?_, by omega⟩
    · rw [timeUnitLoop_succ, unitPoint_other (by omega), Option.bind_some, shown, Option.bind_some,
        if_neg (by omega), run]
    · rw [value, pending_div cases₁, pow_succ, div_div, mul_comm]

theorem timeUnitLoop_plain (isBehind : Behind f) (plain : ∀ i, u / 10 ^ i ≠ 1) (small : a < 10 ^ n)
    (within : u < 10 ^ n) (positive : 0 < n) (enough : n ≤ fuel) (room : f.length + n < 22) :
    ∃ (f' : List ℕ) (e : ℕ), timeUnitLoop fuel (-(a : Int)) u (behind f) = some (behind f') ∧ Behind f' ∧
      numeral 10 f' * 10 ^ e = a * 10 ^ f.length + numeral 10 f ∧ f'.length ≤ f.length + n := by
  induction n generalizing a u f fuel with
  | zero => exact absurd positive (Nat.lt_irrefl 0)
  | succ n ih =>
    obtain ⟨fuel, rfl⟩ : ∃ rest, fuel = rest + 1 := ⟨fuel - 1, by omega⟩
    have notOne : u ≠ 1 := by simpa using plain 0
    obtain ⟨f₁, shown, isBehind₁, length₁, cases₁⟩ := unitDigit_behind isBehind a (by omega)
    -- A digit that is shown keeps the number, and one that is not divides it by ten.
    have weight : ∃ e, (a / 10 * 10 ^ f₁.length + numeral 10 f₁) * 10 ^ e = a * 10 ^ f.length + numeral 10 f := by
      have split := Nat.div_add_mod a 10
      rcases cases₁ with rfl | ⟨zero, rfl, rfl⟩
      · refine ⟨0, ?_⟩
        rw [numeral_cons, List.length_cons, Nat.pow_succ, Nat.pow_zero, Nat.mul_one]
        conv_rhs => rw [← split]
        ring
      · refine ⟨1, ?_⟩
        simp only [numeral_nil, List.length_nil, Nat.pow_zero]
        omega
    rw [timeUnitLoop_succ, unitPoint_other notOne, Option.bind_some, shown, Option.bind_some]
    by_cases last : a / 10 = 0 ∧ u / 10 = 0
    · obtain ⟨e, weight⟩ := weight
      rw [if_pos last]
      refine ⟨f₁, e, rfl, isBehind₁, ?_, by omega⟩
      rw [last.1, Nat.zero_mul, Nat.zero_add] at weight
      exact weight
    have more : 0 < n := by
      rcases Nat.eq_zero_or_pos n with rfl | more
      · omega
      · exact more
    have plain' : ∀ i, u / 10 / 10 ^ i ≠ 1 := by
      intro i
      rw [Nat.div_div_eq_div_mul, ← Nat.pow_succ']
      exact plain (i + 1)
    obtain ⟨f', e', run, isBehind', value, count⟩ :=
      @ih (a / 10) (u / 10) fuel f₁ isBehind₁ plain' (div_lt_pow small) (div_lt_pow within) more (by omega) (by omega)
    obtain ⟨e, weight⟩ := weight
    rw [if_neg last]
    refine ⟨f', e' + e, run, isBehind', ?_, by omega⟩
    rw [Nat.pow_add, ← Nat.mul_assoc, value, weight]

theorem leading_one (u : ℕ) : (∃ k, 10 ^ k ≤ u ∧ u < 2 * 10 ^ k) ∨ ∀ i, u / 10 ^ i ≠ 1 := by
  by_cases one : ∃ k, 10 ^ k ≤ u ∧ u < 2 * 10 ^ k
  · exact Or.inl one
  refine Or.inr fun i isOne => one ⟨i, ?_⟩
  have positive : 0 < 10 ^ i := Nat.pow_pos (by decide)
  have quotient := Nat.div_mul_le_self u (10 ^ i)
  have above := Nat.lt_mul_div_succ u positive
  rw [isOne] at quotient above
  omega

theorem timeUnitLoop_spec (small : a < 10 ^ 19) (positive : 0 < u) (within : u < 10 ^ 19) :
    ∃ (d : Decimal) (e : ℕ) (t : UnitText), timeUnitLoop 19 (-(a : Int)) u ⟨false, []⟩ = some t ∧ d.WellFormed ∧
      d.negative = false ∧ d.magnitude = (a : ℚ) / 10 ^ e ∧ (∀ k, u = 10 ^ k → e = k) ∧ d.text.length ≤ 20 ∧
      unitZero t = some ⟨t.hasDigits, d.text⟩ := by
  have nothing : Behind [] := ⟨fun d inside => absurd inside List.not_mem_nil, by simp⟩
  have start : (⟨false, []⟩ : UnitText) = behind [] := rfl
  rcases leading_one u with ⟨k, low, high⟩ | plain
  · obtain ⟨ds, f, run, nonempty, digits, isBehind, value, count⟩ :=
      timeUnitLoop_point nothing low high small within (Nat.le_refl 19) (by simp)
    refine ⟨⟨false, ds, f⟩, k, _, start ▸ run, ⟨nonempty, ?_, isBehind.trimmed⟩, rfl, ?_, fun j isPow => ?_, ?_, ?_⟩
    · intro d inside
      rcases List.mem_append.mp inside with inside | inside
      · exact digits d inside
      · exact isBehind.digits d inside
    · rw [Decimal.magnitude]
      rw [pending] at value
      rw [value]
      simp [pending]
    · rw [isPow] at low high
      have above := (Nat.pow_le_pow_iff_right (by decide)).mp low
      rcases Nat.lt_or_ge k j with less | same
      · have step : 10 ^ (k + 1) ≤ 10 ^ j := Nat.pow_le_pow_right (by decide) less
        rw [Nat.pow_succ] at step
        omega
      · omega
    · simp only [Decimal.text, Bool.false_eq_true, if_false, List.nil_append, List.length_append, List.length_map]
      rw [List.length_nil] at count
      split
      · rw [List.length_nil]
        omega
      · rw [List.length_cons, List.length_map]
        omega
    · simp [unitZero, Decimal.text]
  · obtain ⟨f, e, run, isBehind, value, count⟩ :=
      timeUnitLoop_plain nothing plain small within (by decide) (Nat.le_refl 19) (by simp)
    have notPow : ∀ j, u = 10 ^ j → e = j := by
      intro j isPow
      refine absurd ?_ (plain j)
      rw [isPow, Nat.div_self (Nat.pow_pos (by decide))]
    rw [List.length_nil] at count
    rw [numeral_nil, List.length_nil, Nat.pow_zero, Nat.mul_one, Nat.add_zero] at value
    by_cases empty : f = []
    · subst empty
      rw [numeral_nil, Nat.zero_mul] at value
      refine ⟨⟨false, [0], []⟩, e, _, start ▸ run, ⟨by simp, by simp, by simp⟩, rfl, ?_, notPow, by decide, ?_⟩
      · simp [Decimal.magnitude, numeral_cons, ← value]
      · decide
    have some' : (behind f).hasDigits = true := decide_eq_true empty
    refine ⟨⟨false, f, []⟩, e, _, start ▸ run, ⟨empty, ?_, by simp⟩, rfl, ?_, notPow, ?_, ?_⟩
    · simpa using isBehind.digits
    · have power : (10 : ℚ) ^ e ≠ 0 := by positivity
      rw [Decimal.magnitude, eq_div_iff power, ← value]
      simp
    · simp only [Decimal.text, Bool.false_eq_true, if_false, List.nil_append, if_true, List.append_nil, List.length_map]
      omega
    · unfold unitZero
      rw [if_pos some']
      simp [Decimal.text, behind]

theorem timeUnitToString_spec {value : Int} (low : -2 ^ 63 ≤ value) (high : value < 2 ^ 63) (positive : 0 < u)
    (within : u < 2 ^ 63) : ∃ (d : Decimal) (e : ℕ), timeUnitToString value u = some d.text ∧ d.WellFormed ∧
      d.negative = decide (value < 0) ∧ d.value = (value : ℚ) / 10 ^ e ∧ ∀ k, u = 10 ^ k → e = k := by
  have magnitude : (if value > 0 then -value else value) = -(value.natAbs : Int) := by
    split <;> omega
  obtain ⟨d, e, t, run, wellFormed, plain, number, isPow, length, shown⟩ :=
    timeUnitLoop_spec (a := value.natAbs) (by omega) positive (by omega)
  refine ⟨{ d with negative := decide (value < 0) }, e, ?_, ⟨wellFormed.int, wellFormed.digits, wellFormed.trimmed⟩, rfl,
    ?_, isPow⟩
  · have text : Decimal.text { d with negative := decide (value < 0) } =
        if value < 0 then '-' :: d.text else d.text := by
      rw [Decimal.text_eq, Decimal.text_eq, plain]
      by_cases negative : value < 0
      · rw [if_pos negative]
        simp [negative, Decimal.unsigned]
      · rw [if_neg negative]
        simp [negative, Decimal.unsigned]
    have signed : (unitSign value ⟨t.hasDigits, d.text⟩).map UnitText.str =
        some (Decimal.text { d with negative := decide (value < 0) }) := by
      rw [text]
      unfold unitSign
      by_cases negative : value < 0
      · rw [if_pos negative, if_pos negative, write_ok _ (show d.text.length < 22 by omega)]
        rfl
      · rw [if_neg negative, if_neg negative]
        rfl
    unfold timeUnitToString
    dsimp only
    rw [magnitude, run]
    show (unitZero t >>= _) = _
    rw [shown, ← signed]
    show (unitSign value ⟨t.hasDigits, d.text⟩).bind (fun t => some t.str) = _
    cases unitSign value ⟨t.hasDigits, d.text⟩ <;> rfl
  · have same : Decimal.magnitude { d with negative := decide (value < 0) } = d.magnitude := rfl
    rw [Decimal.value, same, number]
    by_cases negative : value < 0
    · have cast : (value.natAbs : ℚ) = -(value : ℚ) := by
        rw [Nat.cast_natAbs, abs_of_neg negative, Int.cast_neg]
      rw [if_pos (decide_eq_true negative), cast]
      ring
    · have cast : (value.natAbs : ℚ) = value := by
        rw [Nat.cast_natAbs, abs_of_nonneg (not_lt.mp negative)]
      rw [if_neg (by simpa using negative), cast]

/-- The string is a decimal number, with a sign for the times before zero, that is the quotient by the unit when that
has a finite decimal expansion. -/
def DenotesQuotient (value unit : Int) : Prop :=
  ∃ d : Decimal, timeUnitToString value unit = some d.text ∧ d.WellFormed ∧ (d.negative = true ↔ value < 0) ∧
    (Decimal.Finite value unit → d.value = (value : ℚ) / unit)

/-- The string denotes the quotient exactly for a unit that is a power of ten, for zero, and where the quotient has no
finite expansion. -/
theorem timeUnitToString_denotes {value unit : Int} (low : -2 ^ 63 ≤ value) (high : value < 2 ^ 63) (positive : 0 < unit)
    (within : unit < 2 ^ 63) :
    DenotesQuotient value unit ↔ (∃ k : ℕ, unit = 10 ^ k) ∨ value = 0 ∨ ¬ Decimal.Finite value unit := by
  obtain ⟨u, rfl⟩ := Int.eq_ofNat_of_zero_le positive.le
  obtain ⟨d, e, run, wellFormed, sign, number, isPow⟩ :=
    timeUnitToString_spec low high (Int.natCast_pos.mp positive) (by omega)
  have isSign : d.negative = true ↔ value < 0 := by rw [sign, decide_eq_true_iff]
  have unitPos : (u : ℚ) ≠ 0 := by exact_mod_cast positive.ne'
  have power : (10 : ℚ) ^ e ≠ 0 := by positivity
  constructor
  · rintro ⟨d', run', wellFormed', -, quotient⟩
    have same : d' = d := Decimal.text_inj wellFormed' wellFormed (Option.some.inj (run'.symm.trans run))
    subst same
    by_cases finite : Decimal.Finite value u
    · by_cases zero : value = 0
      · exact Or.inr (Or.inl zero)
      refine Or.inl ⟨e, ?_⟩
      have value' : (value : ℚ) ≠ 0 := by exact_mod_cast zero
      have equal := quotient finite
      rw [number, Int.cast_natCast, div_eq_div_iff power unitPos] at equal
      exact_mod_cast mul_left_cancel₀ value' equal
    · exact Or.inr (Or.inr finite)
  · intro condition
    refine ⟨d, run, wellFormed, isSign, fun finite => ?_⟩
    rcases condition with ⟨k, isTen⟩ | zero | infinite
    · have isTen' : u = 10 ^ k := by exact_mod_cast isTen
      rw [number, isPow k isTen', isTen']
      push_cast
      rfl
    · rw [number, zero]
      simp
    · exact absurd finite infinite

/-- The physical type TIME, with femtoseconds as the primary unit. -/
def timeType : PhysicalType where
  kind := .p64
  name := "time".toList
  primary := ⟨"fs".toList, 1⟩
  secondary := [⟨"ps".toList, 10 ^ 3⟩, ⟨"ns".toList, 10 ^ 6⟩, ⟨"us".toList, 10 ^ 9⟩, ⟨"ms".toList, 10 ^ 12⟩,
    ⟨"sec".toList, 10 ^ 15⟩, ⟨"min".toList, 60 * 10 ^ 15⟩, ⟨"hr".toList, 3600 * 10 ^ 15⟩]

/-- One minute is written as six minutes. -/
theorem timeUnitToString_minute :
    ¬ ∀ value : Int, -2 ^ 63 ≤ value → value < 2 ^ 63 → ∀ u ∈ timeType.units, DenotesQuotient value u.value := by
  intro all
  obtain ⟨d, run, wellFormed, -, quotient⟩ :=
    all (60 * 10 ^ 15) (by decide) (by decide) ⟨"min".toList, 60 * 10 ^ 15⟩ (by simp [timeType, PhysicalType.units])
  have six : timeUnitToString (60 * 10 ^ 15) (60 * 10 ^ 15) = some (Decimal.text ⟨false, [6], []⟩) := by decide +kernel
  have same := Decimal.text_inj wellFormed ⟨by simp, by simp, by simp⟩ (Option.some.inj (run.symm.trans six))
  have value := quotient ⟨0, by simp⟩
  rw [same] at value
  norm_num [Decimal.value, Decimal.magnitude, numeral_cons] at value

/-- Minus one and a half nanoseconds, in picoseconds. -/
theorem timeUnitToString_denotes_nanoseconds :
    (DenotesQuotient (-1500) 1000 ↔ (∃ k : ℕ, (1000 : Int) = 10 ^ k) ∨ (-1500 : Int) = 0 ∨ ¬ Decimal.Finite (-1500) 1000) ∧
      DenotesQuotient (-1500) 1000 := by
  have iff := @timeUnitToString_denotes (-1500) 1000 (by decide) (by decide) (by decide) (by decide)
  exact ⟨iff, iff.mpr (Or.inl ⟨3, by decide⟩)⟩

end Ghdl.Text
