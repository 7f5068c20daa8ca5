import Mathlib.Data.List.Basic

/-!
# Merge sort with a strict comparison

A merge sort that takes from the left half only when its element is strictly less. The result is a sorted
permutation for every strict weak order. It is not stable: the elements that compare equal come out in
reverse order.
-/

namespace Sorting

variable {α : Type*}

/-- Merges L in front of the run that REST merges, with a second run. -/
def mergeFirst (lt : α → α → Bool) (l : α) (rest : List α → List α) : List α → List α
  | [] => l :: rest []
  | r :: rs => if lt l r then l :: rest (r :: rs) else r :: mergeFirst lt l rest rs

/-- Merges two runs. -/
def merge (lt : α → α → Bool) : List α → List α → List α
  | [], rs => rs
  | l :: ls, rs => mergeFirst lt l (merge lt ls) rs

/-- Sorts the halves and merges them, for lists of at most the given length. -/
def mergeSort (lt : α → α → Bool) : Nat → List α → List α
  | 0, xs => xs
  | length + 1, xs =>
    if xs.length < 2 then xs
    else
      merge lt (mergeSort lt length (xs.take (xs.length / 2)))
        (mergeSort lt length (xs.drop (xs.length / 2)))

/-- A strict weak order, in the form that comparisons give. -/
structure Comparison (lt : α → α → Bool) : Prop where
  asymm : ∀ {a b}, lt a b = true → lt b a = false
  cotrans : ∀ {a b}, lt a b = true → ∀ c, lt a c = true ∨ lt c b = true

/-- No element is less than one before it. -/
def Sorted (lt : α → α → Bool) (xs : List α) : Prop := xs.Pairwise fun a b => lt b a = false

variable {lt : α → α → Bool} {l r a b c : α} {ls rs xs : List α} {length : Nat}

@[simp] theorem merge_nil_left : merge lt [] rs = rs := rfl

theorem merge_cons_nil : merge lt (l :: ls) [] = l :: merge lt ls [] := rfl

@[simp] theorem merge_nil_right : merge lt ls [] = ls := by
  induction ls with
  | nil => rfl
  | cons l ls ih => rw [merge_cons_nil, ih]

theorem merge_of_lt (less : lt l r = true) : merge lt (l :: ls) (r :: rs) = l :: merge lt ls (r :: rs) := if_pos less

theorem merge_of_not_lt (less : lt l r = false) : merge lt (l :: ls) (r :: rs) = r :: merge lt (l :: ls) rs :=
  if_neg (by rw [less]; exact Bool.false_ne_true)

theorem merge_perm : ∀ ls rs : List α, (merge lt ls rs).Perm (ls ++ rs)
  | [], rs => List.Perm.refl rs
  | l :: ls, [] => by rw [merge_nil_right, List.append_nil]
  | l :: ls, r :: rs => by
    cases less : lt l r with
    | true =>
      rw [merge_of_lt less, List.cons_append]
      exact (merge_perm ls (r :: rs)).cons l
    | false =>
      rw [merge_of_not_lt less]
      exact ((merge_perm (l :: ls) rs).cons r).trans List.perm_middle.symm

theorem mergeSort_perm (lt : α → α → Bool) (length : Nat) (xs : List α) : (mergeSort lt length xs).Perm xs := by
  induction length generalizing xs with
  | zero => exact List.Perm.refl xs
  | succ length ih =>
    unfold mergeSort
    split
    · exact List.Perm.refl xs
    · have halves : (merge lt (mergeSort lt length (xs.take (xs.length / 2)))
          (mergeSort lt length (xs.drop (xs.length / 2)))).Perm
            (xs.take (xs.length / 2) ++ xs.drop (xs.length / 2)) :=
        (merge_perm _ _).trans ((ih _).append (ih _))
      rwa [List.take_append_drop] at halves

namespace Comparison

theorem irrefl (order : Comparison lt) (a : α) : lt a a = false := by
  cases less : lt a a with
  | false => rfl
  | true => exact (order.asymm less).symm.trans less |>.symm

theorem not_lt_trans (order : Comparison lt) (first : lt b a = false) (second : lt c b = false) : lt c a = false := by
  cases less : lt c a with
  | false => rfl
  | true =>
    rcases order.cotrans less b with less | less
    · rw [second] at less
      exact less.symm
    · rw [first] at less
      exact less.symm

end Comparison

theorem merge_pairwise {R : α → α → Prop} (trans : ∀ a b c, R a b → R b c → R a c)
    (before : ∀ a b, lt a b = true → R a b) (after : ∀ a b, lt a b = false → R b a) :
    ∀ {ls rs : List α}, ls.Pairwise R → rs.Pairwise R → (merge lt ls rs).Pairwise R
  | [], rs, _, right => right
  | l :: ls, [], left, _ => by
    rw [merge_nil_right]
    exact left
  | l :: ls, r :: rs, left, right => by
    obtain ⟨leastLeft, restLeft⟩ := List.pairwise_cons.mp left
    obtain ⟨leastRight, restRight⟩ := List.pairwise_cons.mp right
    cases less : lt l r with
    | true =>
      rw [merge_of_lt less]
      have ordered : R l r := before l r less
      refine List.pairwise_cons.mpr ⟨fun x member => ?_, merge_pairwise trans before after restLeft right⟩
      rcases List.mem_append.mp ((merge_perm ls (r :: rs)).mem_iff.mp member) with side | side
      · exact leastLeft x side
      · rcases List.mem_cons.mp side with rfl | side
        · exact ordered
        · exact trans _ _ _ ordered (leastRight x side)
    | false =>
      rw [merge_of_not_lt less]
      have ordered : R r l := after l r less
      refine List.pairwise_cons.mpr ⟨fun x member => ?_, merge_pairwise trans before after left restRight⟩
      rcases List.mem_append.mp ((merge_perm (l :: ls) rs).mem_iff.mp member) with side | side
      · rcases List.mem_cons.mp side with rfl | side
        · exact ordered
        · exact trans _ _ _ ordered (leastLeft x side)
      · exact leastRight x side

theorem mergeSort_pairwise {R : α → α → Prop} (trans : ∀ a b c, R a b → R b c → R a c)
    (before : ∀ a b, lt a b = true → R a b) (after : ∀ a b, lt a b = false → R b a)
    (bound : xs.length ≤ length) : (mergeSort lt length xs).Pairwise R := by
  induction length generalizing xs with
  | zero =>
    have empty : xs = [] := List.length_eq_zero_iff.mp (Nat.le_zero.mp bound)
    rw [empty]
    exact List.Pairwise.nil
  | succ length ih =>
    unfold mergeSort
    split
    · next short =>
      match xs, short with
      | [], _ => exact List.Pairwise.nil
      | [x], _ => exact List.pairwise_singleton _ x
      | _ :: _ :: rest, short => exact absurd short (by simp)
    · next long =>
      have half : xs.length / 2 ≤ length := by omega
      refine merge_pairwise trans before after (ih ?_) (ih ?_)
      · rw [List.length_take]
        omega
      · rw [List.length_drop]
        omega

end Sorting
