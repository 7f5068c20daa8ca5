import Mathlib
import Ghdl.Numbers.Numerals

/-!
# Decimal numbers

A sign, digits before the point, and digits behind it. The text of a decimal number determines its parts, and a
quotient of integers is one of these numbers when some power of ten makes it an integer.
-/

namespace Ghdl.Numbers

/-- The character of a digit. -/
def digitChar (d : ℕ) : Char := Char.ofNat (48 + d)

/-- A decimal number. -/
@[ext] structure Decimal where
  negative : Bool
  int : List ℕ
  fraction : List ℕ

namespace Decimal

/-- The characters: there is a point when there are digits behind it. -/
def text (d : Decimal) : List Char :=
  (if d.negative then ['-'] else []) ++ d.int.map digitChar ++
    (if d.fraction = [] then [] else '.' :: d.fraction.map digitChar)

/-- The number without its sign. -/
def magnitude (d : Decimal) : ℚ := numeral 10 d.int + numeral 10 d.fraction / 10 ^ d.fraction.length

def value (d : Decimal) : ℚ := if d.negative then -d.magnitude else d.magnitude

/-- There are digits before the point, and no trailing zeros behind it. -/
structure WellFormed (d : Decimal) : Prop where
  int : d.int ≠ []
  digits : ∀ n ∈ d.int ++ d.fraction, n < 10
  trimmed : d.fraction.getLast? ≠ some 0

/-- The quotient has a finite decimal expansion. -/
def Finite (v u : ℤ) : Prop := ∃ k : ℕ, u ∣ v * 10 ^ k

variable {d d' : Decimal}

theorem digitChar_inj {m n : ℕ} (small : m < 10) (small' : n < 10) (same : digitChar m = digitChar n) : m = n := by
  have all : ∀ m n : Fin 10, digitChar m = digitChar n → m = n := by decide
  exact congrArg Fin.val (all ⟨m, small⟩ ⟨n, small'⟩ same)

theorem digitChar_ne {n : ℕ} (small : n < 10) : digitChar n ≠ '-' ∧ digitChar n ≠ '.' := by
  have all : ∀ n : Fin 10, digitChar n ≠ '-' ∧ digitChar n ≠ '.' := by decide
  exact all ⟨n, small⟩

theorem map_digitChar_inj {l l' : List ℕ} (digits : ∀ n ∈ l, n < 10) (digits' : ∀ n ∈ l', n < 10)
    (same : l.map digitChar = l'.map digitChar) : l = l' := by
  induction l generalizing l' with
  | nil => exact (List.map_eq_nil_iff.mp same.symm).symm
  | cons n l ih =>
    cases l' with
    | nil => cases same
    | cons n' l' =>
      obtain ⟨first, rest⟩ := List.cons.inj same
      rw [digitChar_inj (digits n List.mem_cons_self) (digits' n' List.mem_cons_self) first,
        ih (fun k inside => digits k (List.mem_cons_of_mem n inside))
          (fun k inside => digits' k (List.mem_cons_of_mem n' inside)) rest]

/-- The characters behind the sign. -/
def unsigned (d : Decimal) : List Char :=
  d.int.map digitChar ++ (if d.fraction = [] then [] else '.' :: d.fraction.map digitChar)

theorem text_eq (d : Decimal) : d.text = (if d.negative then ['-'] else []) ++ d.unsigned :=
  List.append_assoc _ _ _

theorem WellFormed.head_ne (wellFormed : d.WellFormed) : d.unsigned.head? ≠ some '-' := by
  obtain ⟨n, l, isInt⟩ := List.exists_cons_of_ne_nil wellFormed.int
  have small : n < 10 := wellFormed.digits n (by simp [isInt])
  rw [unsigned, isInt, List.map_cons, List.cons_append, List.head?_cons]
  exact fun same => (digitChar_ne small).1 (Option.some.inj same)

theorem WellFormed.span (wellFormed : d.WellFormed) : d.unsigned.span (· ≠ '.') =
    (d.int.map digitChar, if d.fraction = [] then [] else '.' :: d.fraction.map digitChar) := by
  have plain : ∀ c ∈ d.int.map digitChar, decide (c ≠ '.') = true := by
    intro c inside
    obtain ⟨n, isDigit, rfl⟩ := List.mem_map.mp inside
    exact decide_eq_true (digitChar_ne (wellFormed.digits n (List.mem_append_left _ isDigit))).2
  have stops : (if d.fraction = [] then [] else '.' :: d.fraction.map digitChar).takeWhile (· ≠ '.') = [] ∧
      (if d.fraction = [] then [] else '.' :: d.fraction.map digitChar).dropWhile (· ≠ '.') =
        (if d.fraction = [] then [] else '.' :: d.fraction.map digitChar) := by
    split
    all_goals exact ⟨rfl, rfl⟩
  rw [List.span_eq_takeWhile_dropWhile, unsigned, List.takeWhile_append_of_pos plain, List.dropWhile_append_of_pos plain,
    stops.1, stops.2, List.append_nil]

theorem text_inj (wellFormed : d.WellFormed) (wellFormed' : d'.WellFormed) (same : d.text = d'.text) : d = d' := by
  have parts : d.negative = d'.negative ∧ d.unsigned = d'.unsigned := by
    rw [text_eq, text_eq] at same
    have head := wellFormed.head_ne
    have head' := wellFormed'.head_ne
    cases sign : d.negative <;> cases sign' : d'.negative <;> simp only [sign, sign'] at same
    · exact ⟨rfl, same⟩
    · rw [show d.unsigned = '-' :: d'.unsigned from same] at head
      exact absurd rfl head
    · rw [show d'.unsigned = '-' :: d.unsigned from same.symm] at head'
      exact absurd rfl head'
    · exact ⟨rfl, (List.cons.inj same).2⟩
  have spans := wellFormed.span
  rw [parts.2, wellFormed'.span] at spans
  obtain ⟨ints, fractions⟩ := Prod.mk.inj spans
  have int : d.int = d'.int := map_digitChar_inj (fun n inside => wellFormed.digits n (List.mem_append_left _ inside))
    (fun n inside => wellFormed'.digits n (List.mem_append_left _ inside)) ints.symm
  have fraction : d.fraction = d'.fraction := by
    refine map_digitChar_inj (fun n inside => wellFormed.digits n (List.mem_append_right _ inside))
      (fun n inside => wellFormed'.digits n (List.mem_append_right _ inside)) ?_
    by_cases empty : d.fraction = []
    · by_cases empty' : d'.fraction = []
      · rw [empty, empty']
      · rw [if_pos empty, if_neg empty'] at fractions
        cases fractions
    by_cases empty' : d'.fraction = []
    · rw [if_neg empty, if_pos empty'] at fractions
      cases fractions
    · rw [if_neg empty, if_neg empty'] at fractions
      exact (List.cons.inj fractions).2.symm
  exact Decimal.ext parts.1 int fraction

end Decimal

end Ghdl.Numbers
