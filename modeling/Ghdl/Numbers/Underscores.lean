import Mathlib.Data.List.Basic

/-!
# Digits with underscores

An integer in a text: a digit, then digits, each of which may have one underscore in front. A reader takes as many
characters as belong to it, and it has failed when an underscore is not followed by a digit.
-/

namespace Ghdl.Numbers

variable {ok : Char → Bool}

/-- Digits with single underscores between them. -/
inductive Underscored (ok : Char → Bool) : List Char → Prop
  | single {c : Char} (digit : ok c = true) : Underscored ok [c]
  | digit {c : Char} {cs : List Char} (digit : ok c = true) (rest : Underscored ok cs) : Underscored ok (c :: cs)
  | underscore {c : Char} {cs : List Char} (digit : ok c = true) (rest : Underscored ok cs) :
      Underscored ok (c :: '_' :: cs)

/-- The integer at the start of a text, and what is behind it. -/
def munch (ok : Char → Bool) : List Char → Option (List Char × List Char)
  | [] => none
  | [c] => if ok c then some ([c], []) else none
  | c :: d :: cs =>
    if ok c then
      if d = '_' then (munch ok cs).map fun p => (c :: '_' :: p.1, p.2)
      else if ok d then (munch ok (d :: cs)).map fun p => (c :: p.1, p.2)
      else some ([c], d :: cs)
    else none

/-- The text does not go on with a digit or an underscore. -/
def Stops (ok : Char → Bool) (rest : List Char) : Prop := ∀ c ∈ rest.head?, ok c = false ∧ c ≠ '_'

theorem Underscored.head {int : List Char} (digits : Underscored ok int) : ∃ c cs, int = c :: cs ∧ ok c = true := by
  cases digits with
  | single digit | digit digit _ | underscore digit _ => exact ⟨_, _, rfl, digit⟩

theorem munch_some {t int rest : List Char} (taken : munch ok t = some (int, rest)) :
    t = int ++ rest ∧ Underscored ok int ∧ Stops ok rest := by
  fun_induction munch ok t generalizing int rest with
  | case1 | case3 | case7 => cases taken
  | case2 c digit =>
    rw [Option.some.injEq, Prod.mk.injEq] at taken
    obtain ⟨rfl, rfl⟩ := taken
    exact ⟨rfl, .single digit, nofun⟩
  | case4 c cs digit ih =>
    obtain ⟨⟨int', rest'⟩, inner, same⟩ := Option.map_eq_some_iff.mp taken
    rw [Prod.mk.injEq] at same
    obtain ⟨rfl, rfl⟩ := same
    obtain ⟨rfl, digits, stops⟩ := ih inner
    exact ⟨rfl, .underscore digit digits, stops⟩
  | case5 c d cs digit other next ih =>
    obtain ⟨⟨int', rest'⟩, inner, same⟩ := Option.map_eq_some_iff.mp taken
    rw [Prod.mk.injEq] at same
    obtain ⟨rfl, rfl⟩ := same
    obtain ⟨split, digits, stops⟩ := ih inner
    exact ⟨congrArg (c :: ·) split, .digit digit digits, stops⟩
  | case6 c d cs digit other stop =>
    rw [Option.some.injEq, Prod.mk.injEq] at taken
    obtain ⟨rfl, rfl⟩ := taken
    refine ⟨rfl, .single digit, fun e inside => ?_⟩
    obtain rfl : d = e := by simpa using inside
    exact ⟨Bool.not_eq_true _ ▸ stop, other⟩

theorem munch_append {int rest : List Char} (digits : Underscored ok int) (plain : ok '_' = false)
    (stops : Stops ok rest) : munch ok (int ++ rest) = some (int, rest) := by
  induction digits with
  | single digit =>
    cases rest with
    | nil =>
      show (if _ then _ else _) = _
      rw [if_pos digit]
    | cons d rest =>
      obtain ⟨other, underscore⟩ := stops d rfl
      show (if _ then _ else _) = _
      rw [if_pos digit, if_neg underscore, if_neg (by rw [other]; exact Bool.false_ne_true)]
  | @digit c cs digit inner ih =>
    obtain ⟨d, cs', rfl, next⟩ := inner.head
    have other : d ≠ '_' := by
      rintro rfl
      rw [plain] at next
      cases next
    show (if _ then _ else _) = _
    rw [if_pos digit, if_neg other, if_pos next]
    show Option.map _ (munch ok (d :: cs' ++ rest)) = _
    rw [ih]
    rfl
  | underscore digit _ ih =>
    show (if _ then _ else _) = _
    rw [if_pos digit, if_pos rfl]
    show Option.map _ (munch ok (_ ++ rest)) = _
    rw [ih]
    rfl

end Ghdl.Numbers
