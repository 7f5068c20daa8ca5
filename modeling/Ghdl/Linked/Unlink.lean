import Mathlib.Data.List.Nodup

/-!
# Unlinking that can be undone

A chain is followed through the links of a map, up to a null link. To unlink a member, the link of the one before it
is changed to the one after it; its own link, which nothing follows any more, is left on the one before it. So the
member is enough to link it again, as long as what was unlinked later is linked again before it.
-/

namespace Linked

open Function

variable {α : Type*}

/-- From P on, the links visit the members in this order, up to the null link. -/
def Visits (next : α → α) (null : α) : α → List α → Prop
  | p, [] => p = null
  | p, a :: l => p = a ∧ a ≠ null ∧ Visits next null (next a) l

variable {next next' : α → α} {null a b p : α} {l m : List α}

theorem Visits.congr (same : ∀ b ∈ l, next' b = next b) : Visits next' null p l ↔ Visits next null p l := by
  induction l generalizing p with
  | nil => exact Iff.rfl
  | cons a l ih =>
    unfold Visits
    rw [same a List.mem_cons_self, ih fun b inside => same b (List.mem_cons_of_mem a inside)]

theorem Visits.unique (first : Visits next null p l) (second : Visits next null p m) : l = m := by
  induction l generalizing p m with
  | nil =>
    cases m with
    | nil => rfl
    | cons b m => exact absurd (second.1.symm.trans first) second.2.1
  | cons a l ih =>
    cases m with
    | nil => exact absurd (first.1.symm.trans second) first.2.1
    | cons b m =>
      obtain rfl : a = b := first.1.symm.trans second.1
      rw [ih first.2.2 second.2.2]

theorem Visits.ne_null (visits : Visits next null p l) (inside : a ∈ l) : a ≠ null := by
  induction l generalizing p with
  | nil => cases inside
  | cons b l ih =>
    rcases List.mem_cons.mp inside with here | later
    · exact here ▸ visits.2.1
    · exact ih visits.2.2 later

theorem Visits.suffix (visits : Visits next null p (l ++ a :: m)) : Visits next null a (a :: m) := by
  induction l generalizing p with
  | nil => exact ⟨rfl, visits.2⟩
  | cons b l ih => exact ih visits.2.2

theorem Visits.nodup (visits : Visits next null p l) : l.Nodup := by
  induction l generalizing p with
  | nil => exact List.nodup_nil
  | cons a l ih =>
    refine List.nodup_cons.mpr ⟨fun again => ?_, ih visits.2.2⟩
    obtain ⟨front, back, split⟩ := List.append_of_mem again
    have whole : Visits next null a (a :: l) := ⟨rfl, visits.2⟩
    have later : Visits next null a (a :: back) := by
      apply Visits.suffix
      rw [← split]
      exact visits.2.2
    have same : l = back := List.cons.inj (whole.unique later) |>.2
    have lengths := congrArg List.length split
    rw [List.length_append, List.length_cons, ← same] at lengths
    omega

theorem Visits.next_eq (visits : Visits next null p (l ++ a :: b :: m)) : next a = b := by
  induction l generalizing p with
  | nil => exact visits.2.2.1
  | cons c l ih => exact ih visits.2.2

theorem Visits.next_eq_null (visits : Visits next null p (l ++ [a])) : next a = null := by
  induction l generalizing p with
  | nil => exact visits.2.2
  | cons c l ih => exact ih visits.2.2

variable [DecidableEq α]

/-- Take A, which follows P, out of its chain. -/
def unlink (next : α → α) (a p : α) : α → α := update (update next a p) p (next a)

/-- Put A back behind the member that it was taken from. -/
def relink (next : α → α) (a : α) : α → α :=
  update (update next a (next (next a))) (next a) a

theorem relink_unlink (follows : next p = a) (different : a ≠ p) : relink (unlink next a p) a = next := by
  have link : unlink next a p a = p := by
    unfold unlink
    rw [update_of_ne different, update_self]
  have before : unlink next a p p = next a := update_self _ _ _
  unfold relink
  rw [link, before]
  funext b
  by_cases isP : b = p
  · rw [isP, update_self, follows]
  rw [update_of_ne isP]
  by_cases isA : b = a
  · rw [isA, update_self]
  · rw [update_of_ne isA]
    unfold unlink
    rw [update_of_ne isP, update_of_ne isA]

theorem Visits.unlink (visits : Visits next null b (l ++ p :: a :: m)) (distinct : (l ++ p :: a :: m).Nodup) :
    Visits (unlink next a p) null b (l ++ p :: m) := by
  have frame : ∀ c, c ≠ a → c ≠ p → Linked.unlink next a p c = next c := by
    intro c notA notP
    unfold Linked.unlink
    rw [update_of_ne notP, update_of_ne notA]
  induction l generalizing b with
  | nil =>
    have tail := (List.nodup_cons.mp distinct).2
    have notP := (List.nodup_cons.mp distinct).1
    have notA := (List.nodup_cons.mp tail).1
    refine ⟨visits.1, visits.2.1, ?_⟩
    have before : Linked.unlink next a p p = next a := update_self _ _ _
    rw [before]
    refine (Visits.congr fun c inside => ?_).mpr visits.2.2.2.2
    exact frame c (fun isA => notA (isA ▸ inside)) fun isP => notP (isP ▸ List.mem_cons_of_mem a inside)
  | cons c l ih =>
    have out := (List.nodup_cons.mp distinct).1
    have same : Linked.unlink next a p c = next c := by
      apply frame
      · intro isA
        exact out (List.mem_append_right l (isA ▸ List.mem_cons_of_mem p List.mem_cons_self))
      · intro isP
        exact out (List.mem_append_right l (isP ▸ List.mem_cons_self))
    refine ⟨visits.1, visits.2.1, ?_⟩
    rw [same]
    exact ih visits.2.2 (List.nodup_cons.mp distinct).2

end Linked
