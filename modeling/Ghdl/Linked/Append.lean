import Ghdl.Linked.Family

/-!
# Cells behind a list

A cell that is on no list may be put behind a cell of one, by redirecting the link of that cell.
-/

namespace Linked

variable {α ι : Type*} [DecidableEq α] [DecidableEq ι] {next : α → Option (Option α)} {head : ι → Option α}
  {cells : ι → List α} {i : ι} {a b : α} {l : List α}

omit [DecidableEq α] in
theorem Segment.next_eq {p q : Option α} {n : Nat} (path : Segment next p l q) (isA : l[n]? = some a)
    (isB : l[n + 1]? = some b) : next a = some (some b) := by
  induction l generalizing p n with
  | nil => simp at isA
  | cons c l ih =>
    obtain ⟨-, r, link, rest⟩ := path
    cases n with
    | zero =>
      rw [List.getElem?_cons_zero, Option.some.injEq] at isA
      rw [List.getElem?_cons_succ] at isB
      cases l with
      | nil => simp at isB
      | cons d l =>
        rw [List.getElem?_cons_zero, Option.some.injEq] at isB
        rw [← isA, link, rest.1, isB]
    | succ n => exact ih rest isA isB

omit [DecidableEq α] in
theorem Segment.link_eq {p : Option α} {m : List α} (path : Segment next p (m ++ a :: l) none) : next a = some l.head? := by
  obtain ⟨r, -, start, s, link, rest⟩ := Segment.append_iff.mp path
  rw [link, rest.start_eq]

theorem Segment.insert {p : Option α} {m : List α} (path : Segment next p (l ++ b :: m) none) (fresh : a ∉ l ++ b :: m) :
    Segment (Function.update (Function.update next a (some m.head?)) b (some (some a))) p (l ++ b :: a :: m) none := by
  have different : a ≠ b := fun same => fresh (by simp [same])
  have distinct := path.nodup
  have notBefore : b ∉ l := fun inside =>
    (List.nodup_append.mp distinct).2.2 b inside b List.mem_cons_self rfl
  have notAfter : b ∉ m := (List.nodup_cons.mp (List.nodup_append.mp distinct).2.1).1
  have kept : Segment (Function.update next a (some m.head?)) p (l ++ b :: m) none := (Segment.update fresh _).mpr path
  rw [List.append_cons] at kept
  obtain ⟨r, front, back⟩ := Segment.append_iff.mp kept
  rw [List.append_cons]
  refine (front.redirect notBefore (some a)).append ⟨rfl, m.head?, ?_, ?_⟩
  · rw [Function.update_of_ne different, Function.update_self]
  · have start := back.start_eq
    rw [Segment.update notAfter, ← start]
    exact start ▸ back

theorem Family.insert {m : List α} (family : Family next head cells) (free : next a = none) (split : cells i = l ++ b :: m) :
    Family (Function.update (Function.update next a (some m.head?)) b (some (some a))) head
      (Function.update cells i (l ++ b :: a :: m)) where
  path j := by
    have outside := family.not_mem free j
    by_cases same : j = i
    · subst same
      have path := family.path j
      rw [split] at path outside
      rw [Function.update_self]
      exact path.insert outside
    · have notB : b ∉ cells j := family.disjoint i j (Ne.symm same) b (by rw [split]; simp)
      rw [Function.update_of_ne same, Segment.update notB, Segment.update outside]
      exact family.path j
  disjoint j k apart c inside inside' := by
    have members : ∀ n, c ∈ Function.update cells i (l ++ b :: a :: m) n → c ∈ cells n ∨ n = i ∧ c = a := by
      intro n inside
      by_cases same : n = i
      · subst same
        rw [Function.update_self] at inside
        by_cases isA : c = a
        · exact Or.inr ⟨rfl, isA⟩
        · rw [split]
          simp only [List.mem_append, List.mem_cons, isA, false_or] at inside ⊢
          exact Or.inl inside
      · rw [Function.update_of_ne same] at inside
        exact Or.inl inside
    rcases members j inside with inJ | ⟨isI, isA⟩
    · rcases members k inside' with inK | ⟨-, isA⟩
      · exact family.disjoint j k apart c inJ inK
      · exact family.not_mem free j (isA ▸ inJ)
    · rcases members k inside' with inK | ⟨isI', -⟩
      · exact family.not_mem free k (isA ▸ inK)
      · exact apart (isI.trans isI'.symm)
  complete c linked := by
    have member : c = a ∨ ∃ n, c ∈ cells n := by
      by_cases same : c = a
      · exact Or.inl same
      · refine Or.inr (family.complete c fun none => linked ?_)
        by_cases isB : c = b
        · exact absurd none (family.linked_iff.mpr ⟨i, by rw [split, isB]; simp⟩)
        · rw [Function.update_of_ne isB, Function.update_of_ne same, none]
    rcases member with rfl | ⟨n, inside⟩
    · exact ⟨i, by rw [Function.update_self]; simp⟩
    refine ⟨n, ?_⟩
    by_cases same : n = i
    · subst same
      rw [split] at inside
      rw [Function.update_self]
      simp only [List.mem_append, List.mem_cons] at inside ⊢
      rcases inside with inside | inside | inside
      · exact Or.inl inside
      · exact Or.inr (Or.inl inside)
      · exact Or.inr (Or.inr (Or.inr inside))
    · rwa [Function.update_of_ne same]

theorem Family.append (family : Family next head cells) (free : next a = none) (split : cells i = l ++ [b]) :
    Family (Function.update (Function.update next a (some none)) b (some (some a))) head
      (Function.update cells i (l ++ [b] ++ [a])) := by
  have inserted := family.insert free split
  rw [List.append_assoc]
  exact inserted

omit [DecidableEq α] [DecidableEq ι] in
theorem Family.canonical (family : Family next head cells) : Family next (fun i => (cells i).head?) cells :=
  family.congr_head fun i => (family.head_eq i).symm

end Linked
