import Mathlib.Data.List.Nodup
import Mathlib.Data.List.Perm.Subperm

/-!
# Segments of linked cells

A linked list in memory is a set of cells, each holding the link to the cell after it. The
memory is a map from addresses to links: `next a = none` when no cell is allocated at `a`,
`next a = some none` when the cell at `a` ends the list, and `next a = some (some b)` when it
is followed by the cell at `b`. `Segment next p l q` says that following links from `p`
through the cells `l`, in order, arrives at `q`.
-/

namespace Linked

variable {α : Type*}

/-- Following the links of `next` from `p` visits exactly the cells `l` and arrives at `q`. -/
def Segment (next : α → Option (Option α)) : Option α → List α → Option α → Prop
  | p, [], q => p = q
  | p, a :: l, q => p = some a ∧ ∃ r, next a = some r ∧ Segment next r l q

namespace Segment

variable {next next' : α → Option (Option α)} {p q r : Option α} {a b : α} {l m : List α}

@[simp] theorem nil_iff : Segment next p [] q ↔ p = q := Iff.rfl

@[simp] theorem cons_iff : Segment next p (a :: l) q ↔ p = some a ∧ ∃ r, next a = some r ∧ Segment next r l q := Iff.rfl

theorem append_iff : Segment next p (l ++ m) q ↔ ∃ r, Segment next p l r ∧ Segment next r m q := by
  induction l generalizing p with
  | nil => simp
  | cons a l ih =>
    simp only [List.cons_append, cons_iff, ih]
    constructor
    · rintro ⟨start, r, link, s, front, back⟩
      exact ⟨s, ⟨start, r, link, front⟩, back⟩
    · rintro ⟨s, ⟨start, r, link, front⟩, back⟩
      exact ⟨start, r, link, s, front, back⟩

/-- Two segments meeting at a link are one segment. -/
theorem append (front : Segment next p l r) (back : Segment next r m q) :
    Segment next p (l ++ m) q := append_iff.mpr ⟨r, front, back⟩

theorem concat_iff : Segment next p (l ++ [a]) q ↔ Segment next p l (some a) ∧ next a = some q := by
  rw [append_iff]
  constructor
  · rintro ⟨r, front, rfl, s, link, rfl⟩
    exact ⟨front, link⟩
  · rintro ⟨front, link⟩
    exact ⟨some a, front, rfl, q, link, rfl⟩

/-- Segments depend only on the links of their own cells. -/
theorem congr (same : ∀ a ∈ l, next' a = next a) : Segment next' p l q ↔ Segment next p l q := by
  induction l generalizing p with
  | nil => simp
  | cons a l ih =>
    have tail := fun r => ih (p := r) (fun b inside => same b (List.mem_cons_of_mem a inside))
    simp only [cons_iff, same a List.mem_cons_self, tail]

/-- A write outside a segment keeps it. -/
theorem update [DecidableEq α] (outside : a ∉ l) (link : Option (Option α)) :
    Segment (Function.update next a link) p l q ↔ Segment next p l q :=
  congr fun _ inside => Function.update_of_ne (ne_of_mem_of_not_mem inside outside) _ _

/-- Every cell of a segment is allocated. -/
theorem allocated (path : Segment next p l q) : ∀ a ∈ l, ∃ r, next a = some r := by
  induction l generalizing p with
  | nil => simp
  | cons b l ih =>
    obtain ⟨-, r, link, rest⟩ := path
    intro a inside
    rcases List.mem_cons.mp inside with rfl | inside
    · exact ⟨r, link⟩
    · exact ih rest a inside

theorem start_eq (path : Segment next p l none) : p = l.head? := by
  cases l with
  | nil => exact path
  | cons a l => exact path.1

/-- From one start, a segment that runs to the null link has one list of cells. -/
theorem unique (left : Segment next p l none) (right : Segment next p m none) : l = m := by
  induction l generalizing p m with
  | nil =>
    cases m with
    | nil => rfl
    | cons b m =>
      rw [nil_iff] at left
      rw [cons_iff, left] at right
      exact absurd right.1 (by simp)
  | cons a l ih =>
    obtain ⟨rfl, r, link, rest⟩ := left
    cases m with
    | nil => exact absurd right (by simp)
    | cons b m =>
      obtain ⟨start, s, link', rest'⟩ := right
      obtain rfl := Option.some.inj start
      obtain rfl := Option.some.inj (link.symm.trans link')
      rw [ih rest rest']

/-- What the links visit first is the front of the whole segment that runs to the null link. -/
theorem initial (front : Segment next p m (some a)) (whole : Segment next p l none) : ∃ back, l = m ++ a :: back := by
  induction m generalizing p l with
  | nil =>
    rw [nil_iff.mp front] at whole
    cases l with
    | nil => exact absurd whole (by simp)
    | cons b l =>
      rw [Option.some.inj whole.1]
      exact ⟨l, rfl⟩
  | cons b m ih =>
    obtain ⟨rfl, r, link, rest⟩ := front
    cases l with
    | nil => exact absurd whole (by simp)
    | cons c l =>
      obtain ⟨start, r', link', rest'⟩ := whole
      obtain rfl := Option.some.inj start
      obtain rfl := Option.some.inj (link.symm.trans link')
      obtain ⟨back, isRest⟩ := ih rest rest'
      exact ⟨back, congrArg (b :: ·) isRest⟩

/-- A segment that runs to the null link holds no cell twice. -/
theorem nodup (path : Segment next p l none) : l.Nodup := by
  induction l generalizing p with
  | nil => exact List.nodup_nil
  | cons a l ih =>
    obtain ⟨rfl, r, link, rest⟩ := path
    refine List.nodup_cons.mpr ⟨fun inside => ?_, ih rest⟩
    -- A second visit to `a` would be followed by the same cells again, without end.
    obtain ⟨front, back, rfl⟩ := List.append_of_mem inside
    obtain ⟨s, -, again⟩ := append_iff.mp rest
    have start : s = some a := again.1
    subst start
    have whole : Segment next (some a) (a :: (front ++ a :: back)) none := ⟨rfl, r, link, rest⟩
    have length := congrArg List.length (unique whole again)
    simp at length
    omega

/-- The link out of the last cell may be redirected: the segment then ends there. -/
theorem redirect [DecidableEq α] (path : Segment next p (l ++ [a]) q) (fresh : a ∉ l)
    (r : Option α) : Segment (Function.update next a (some r)) p (l ++ [a]) r := by
  rw [concat_iff] at path ⊢
  exact ⟨(update fresh _).mpr path.1, Function.update_self a _ next⟩

theorem length_le {next : Nat → Option (Option Nat)} {p : Option Nat} {l : List Nat}
    (path : Segment next p l none) {bound : Nat} (below : ∀ a ∈ l, a < bound) : l.length ≤ bound := by
  have sub : l.Subperm (List.range bound) :=
    List.subperm_of_subset path.nodup fun a inside => List.mem_range.mpr (below a inside)
  simpa using sub.length_le

end Segment

end Linked
