import Mathlib.Data.List.Nodup

/-!
# Lists with back links in front

In a list that is linked forward, the marked cells come first and also hold a link to the cell before
them; the others have no link back. So a marked cell is taken out without looking for it: the cell before
it, which is marked too, is known, and the cell after it gets its back link when it is marked.
-/

namespace Linked

variable {α : Type*}

/-- Of the cells after `back`, the marked ones come first, and each links back to the cell before it. -/
def Backed (marked : α → Bool) (prev : α → Option α) : Option α → List α → Prop
  | _, [] => True
  | back, a :: l =>
    (marked a = true → prev a = back) ∧ (marked a = false → ∀ b ∈ l, marked b = false) ∧
      Backed marked prev (some a) l

variable [DecidableEq α]

/-- Set the back link of the next cell, if that is a marked one. -/
def linkBack (marked : α → Bool) (prev : α → Option α) (next back : Option α) : α → Option α :=
  match next with
  | none => prev
  | some b => if marked b then Function.update prev b back else prev

theorem linkBack_of_ne {marked : α → Bool} {prev : α → Option α} {next back : Option α} {a : α}
    (other : next ≠ some a) : linkBack marked prev next back a = prev a := by
  cases next with
  | none => rfl
  | some b =>
    unfold linkBack
    by_cases mark : marked b
    · dsimp only
      rw [if_pos mark, Function.update_of_ne fun same => other (congrArg some same.symm)]
    · dsimp only
      rw [if_neg mark]

namespace Backed

variable {marked marked' : α → Bool} {prev prev' : α → Option α} {back : Option α} {a b : α} {l m : List α}

omit [DecidableEq α] in
/-- It depends only on the cells of the list. -/
theorem congr (backed : Backed marked prev back l) (marks : ∀ a ∈ l, marked' a = marked a)
    (links : ∀ a ∈ l, prev' a = prev a) : Backed marked' prev' back l := by
  induction l generalizing back with
  | nil => exact trivial
  | cons b l ih =>
    obtain ⟨link, order, rest⟩ := backed
    rw [List.forall_mem_cons] at marks links
    refine ⟨fun mark => ?_, fun mark c inside => ?_, ih rest marks.2 links.2⟩
    · exact links.1.trans (link (marks.1 ▸ mark))
    · rw [marks.2 c inside]
      exact order (marks.1 ▸ mark) c inside

omit [DecidableEq α] in
/-- Without marked cells there are no back links. -/
theorem unmarked (none : ∀ a ∈ l, marked a = false) : Backed marked prev back l := by
  induction l generalizing back with
  | nil => exact trivial
  | cons b l ih =>
    rw [List.forall_mem_cons] at none
    exact ⟨fun mark => absurd (mark.symm.trans none.1) nofun, fun _ => none.2, ih none.2⟩

/-- The first cell may be given another one before it. -/
theorem relink (backed : Backed marked prev back l) (distinct : l.Nodup) (back' : Option α) :
    Backed marked (linkBack marked prev l.head? back') back' l := by
  cases l with
  | nil => exact trivial
  | cons b l =>
    obtain ⟨fresh, -⟩ := List.nodup_cons.mp distinct
    obtain ⟨-, order, rest⟩ := backed
    refine ⟨fun mark => ?_, order, rest.congr (fun _ _ => rfl) fun c inside => linkBack_of_ne ?_⟩
    · simp [linkBack, mark]
    · exact fun same => fresh (Option.some.inj same ▸ inside)

/-- A marked cell may be put in front. -/
theorem cons (backed : Backed marked prev none l) (distinct : (a :: l).Nodup) (mark : marked a = true)
    (first : prev a = none) : Backed marked (linkBack marked prev l.head? (some a)) none (a :: l) := by
  obtain ⟨fresh, distinct⟩ := List.nodup_cons.mp distinct
  refine ⟨fun _ => ?_, fun unmarked => absurd (mark.symm.trans unmarked) nofun, backed.relink distinct (some a)⟩
  rw [linkBack_of_ne, first]
  exact fun same => fresh (List.mem_of_mem_head? same)

omit [DecidableEq α] in
theorem prev_first (backed : Backed marked prev back (a :: m)) (mark : marked a = true) : prev a = back :=
  backed.1 mark

omit [DecidableEq α] in
theorem prev_after (backed : Backed marked prev back (l ++ b :: a :: m)) (mark : marked a = true) :
    prev a = some b ∧ marked b = true := by
  induction l generalizing back with
  | nil =>
    obtain ⟨-, order, link, -⟩ := backed
    refine ⟨link mark, ?_⟩
    by_contra unmarked
    exact absurd (mark.symm.trans (order (Bool.eq_false_iff.mpr unmarked) a List.mem_cons_self)) nofun
  | cons c l ih => exact ih backed.2.2

/-- A marked cell may be taken out. -/
theorem remove (backed : Backed marked prev back (l ++ a :: m)) (distinct : (l ++ a :: m).Nodup)
    (mark : marked a = true) : Backed marked (linkBack marked prev m.head? (prev a)) back (l ++ m) := by
  induction l generalizing back with
  | nil =>
    obtain ⟨link, -, rest⟩ := backed
    rw [link mark]
    exact rest.relink (List.nodup_cons.mp distinct).2 back
  | cons c l ih =>
    obtain ⟨fresh, distinct⟩ := List.nodup_cons.mp distinct
    obtain ⟨link, order, rest⟩ := backed
    refine ⟨fun marked' => ?_, fun unmarked b inside => order unmarked b ?_, ih rest distinct⟩
    · rw [linkBack_of_ne, link marked']
      intro same
      exact fresh (List.mem_append_right _ (List.mem_cons_of_mem a (List.mem_of_mem_head? same)))
    · rcases List.mem_append.mp inside with front | after
      · exact List.mem_append_left _ front
      · exact List.mem_append_right _ (List.mem_cons_of_mem a after)

end Backed

end Linked
