import Ghdl.Linked.Segment

/-!
# Doubly linked lists

A doubly linked list is threaded through two link fields. `Doubly next prev head cells` says that the
forward links from `head` visit `cells`, that each cell links back to the cell before it, and that the
other cells have neither link. So a cell can be taken out of the list without looking for it, and
taking out a cell that is not on the list does nothing.
-/

namespace Linked

open Function

variable {α : Type*}

/-- The forward links from the start visit the cells, the first of which links back to `back`. -/
def DoublePath (next prev : α → Option α) : Option α → Option α → List α → Prop
  | start, _, [] => start = none
  | start, back, a :: l => start = some a ∧ prev a = back ∧ DoublePath next prev (next a) (some a) l

namespace DoublePath

variable {next next' prev prev' : α → Option α} {start back : Option α} {a : α} {l : List α}

section

variable (path : DoublePath next prev start back l)
include path

/-- A doubly linked path is a path of forward links. -/
theorem segment : Segment (fun a => some (next a)) start l none := by
  induction l generalizing start back with
  | nil => exact path
  | cons b l ih => exact ⟨path.1, next b, rfl, ih path.2.2⟩

/-- Paths depend only on the links of their own cells. -/
theorem congr (forward : ∀ a ∈ l, next' a = next a)
    (backward : ∀ a ∈ l, prev' a = prev a) : DoublePath next' prev' start back l := by
  induction l generalizing start back with
  | nil => exact path
  | cons b l ih =>
    have rest := ih path.2.2 (fun a inside => forward a (List.mem_cons_of_mem b inside))
      (fun a inside => backward a (List.mem_cons_of_mem b inside))
    refine ⟨path.1, (backward b List.mem_cons_self).trans path.2.1, ?_⟩
    rwa [forward b List.mem_cons_self]

theorem next_mem (inside : a ∈ l) {b : α}
    (link : next a = some b) : b ∈ l := by
  induction l generalizing start back with
  | nil => simp at inside
  | cons c l ih =>
    rcases List.mem_cons.mp inside with rfl | inside
    · have rest := path.2.2
      rw [link] at rest
      cases l with
      | nil => exact absurd rest (by simp [DoublePath])
      | cons d l =>
        rw [Option.some.inj rest.1]
        exact List.mem_cons_of_mem a List.mem_cons_self
    · exact List.mem_cons_of_mem c (ih path.2.2 inside)

theorem prev_cases (inside : a ∈ l) :
    (start = some a ∧ prev a = back) ∨ ∃ b ∈ l, next b = some a ∧ prev a = some b := by
  induction l generalizing start back with
  | nil => simp at inside
  | cons c l ih =>
    rcases List.mem_cons.mp inside with rfl | inside
    · exact .inl ⟨path.1, path.2.1⟩
    · rcases ih path.2.2 inside with ⟨link, before⟩ | ⟨b, member, link, before⟩
      · exact .inr ⟨c, List.mem_cons_self, link, before⟩
      · exact .inr ⟨b, List.mem_cons_of_mem c member, link, before⟩

end

end DoublePath

/-- A doubly linked list. -/
structure Doubly (next prev : α → Option α) (head : Option α) (cells : List α) : Prop where
  /-- The links from the head visit the cells. -/
  path : DoublePath next prev head none cells
  /-- The other cells have no links. -/
  outside : ∀ a, a ∉ cells → next a = none ∧ prev a = none

namespace Doubly

variable {next prev : α → Option α} {head : Option α} {cells l : List α} {a : α}

/-- The cells of a list are distinct. -/
theorem nodup (list : Doubly next prev head cells) : cells.Nodup := list.path.segment.nodup

theorem next_ne (list : Doubly next prev head cells) (a : α) : next a ≠ some a := by
  intro link
  by_cases inside : a ∈ cells
  · obtain ⟨front, rest, rfl⟩ := List.append_of_mem inside
    obtain ⟨r, -, path⟩ := Segment.append_iff.mp list.path.segment
    obtain ⟨-, s, after, back⟩ := path
    rw [← Option.some.inj after, link] at back
    have distinct := (List.nodup_append.mp list.nodup).2.1
    cases rest with
    | nil => exact absurd back (by simp)
    | cons b rest =>
      rw [← Option.some.inj back.1] at distinct
      exact (List.nodup_cons.mp distinct).1 List.mem_cons_self
  · rw [(list.outside a inside).1] at link
    exact absurd link (by simp)

theorem prev_ne (list : Doubly next prev head cells) (a : α) : prev a ≠ some a := by
  intro link
  by_cases inside : a ∈ cells
  · rcases list.path.prev_cases inside with ⟨-, before⟩ | ⟨b, -, follow, before⟩
    · exact absurd (before.symm.trans link) (by simp)
    · rw [Option.some.inj (before.symm.trans link)] at follow
      exact list.next_ne a follow
  · rw [(list.outside a inside).2] at link
    exact absurd link (by simp)

theorem prev_head (list : Doubly next prev head cells) (first : head = some a) : prev a = none := by
  have path := list.path
  cases cells with
  | nil => exact absurd (first.symm.trans path) (by simp)
  | cons b l =>
    rw [Option.some.inj (first.symm.trans path.1)]
    exact path.2.1

/-- The list without cells. -/
theorem empty (unlinked : ∀ a, next a = none ∧ prev a = none) : Doubly next prev none [] where
  path := rfl
  outside a _ := unlinked a

variable [DecidableEq α]

/-- The forward links after putting a cell in front. -/
def insertNext (next : α → Option α) (head : Option α) (a : α) : α → Option α :=
  update next a head

/-- The backward links after putting a cell in front. -/
def insertPrev (prev : α → Option α) (head : Option α) (a : α) : α → Option α :=
  match head with
  | none => update prev a none
  | some b => update (update prev a none) b (some a)

/-- A cell that is not on the list may be put in front. -/
theorem insert (list : Doubly next prev head cells) (fresh : a ∉ cells) :
    Doubly (insertNext next head a) (insertPrev prev head a) (some a) (a :: cells) where
  path := by
    have before : insertPrev prev head a a = none := by
      cases start : head with
      | none => exact update_self _ _ _
      | some b =>
        have path := list.path
        cases cells with
        | nil => exact absurd path (by simp [DoublePath, start])
        | cons c l =>
          have different : a ≠ b := by
            rintro rfl
            have same := Option.some.inj (start.symm.trans path.1)
            exact fresh (same ▸ List.mem_cons_self)
          rw [insertPrev, update_of_ne different, update_self]
    refine ⟨rfl, before, ?_⟩
    rw [insertNext, update_self]
    have forward : ∀ b ∈ cells, update next a head b = next b := fun b inside =>
      update_of_ne (ne_of_mem_of_not_mem inside fresh) _ _
    cases cells with
    | nil => exact list.path
    | cons b l =>
      obtain ⟨rfl, -, rest⟩ := list.path
      have distinct := list.nodup
      rw [List.nodup_cons] at distinct
      refine ⟨rfl, update_self _ _ _, ?_⟩
      rw [forward b List.mem_cons_self]
      refine rest.congr (fun c inside => forward c (List.mem_cons_of_mem b inside)) fun c inside => ?_
      have apart : c ≠ b := ne_of_mem_of_not_mem inside distinct.1
      have apart' : c ≠ a := ne_of_mem_of_not_mem (List.mem_cons_of_mem b inside) fresh
      rw [insertPrev, update_of_ne apart, update_of_ne apart']
  outside b away := by
    rw [List.mem_cons, not_or] at away
    obtain ⟨forward, backward⟩ := list.outside b away.2
    refine ⟨(update_of_ne away.1 _ _).trans forward, ?_⟩
    cases start : head with
    | none => exact (update_of_ne away.1 _ _).trans backward
    | some c =>
      have path := list.path
      cases cells with
      | nil => exact absurd path (by simp [DoublePath, start])
      | cons d l =>
        have same := Option.some.inj (start.symm.trans path.1)
        have different : b ≠ c := by
          rintro rfl
          exact away.2 (same ▸ List.mem_cons_self)
        rw [insertPrev, update_of_ne different, update_of_ne away.1]
        exact backward

/-- The forward links after taking a cell out. -/
def removeNext (next prev : α → Option α) (a : α) : α → Option α :=
  match prev a with
  | none => update next a none
  | some b => update (update next b (next a)) a none

/-- The backward links after taking a cell out. -/
def removePrev (next prev : α → Option α) (a : α) : α → Option α :=
  match next a with
  | none => update prev a none
  | some b => update (update prev b (prev a)) a none

/-- The head after taking a cell out. -/
def removeHead (next : α → Option α) (head : Option α) (a : α) : Option α :=
  if head = some a then next a else head

theorem removeNext_of_ne {b : α} (different : b ≠ a) (before : prev a ≠ some b) :
    removeNext next prev a b = next b := by
  cases link : prev a with
  | none =>
    rw [removeNext, link]
    exact update_of_ne different _ _
  | some c =>
    have apart : b ≠ c := fun same => before (by rw [link, same])
    rw [removeNext, link]
    exact (update_of_ne different _ _).trans (update_of_ne apart _ _)

theorem removePrev_of_ne {b : α} (different : b ≠ a) (after : next a ≠ some b) : removePrev next prev a b = prev b := by
  cases link : next a with
  | none =>
    rw [removePrev, link]
    exact update_of_ne different _ _
  | some c =>
    have apart : b ≠ c := fun same => after (by rw [link, same])
    rw [removePrev, link]
    exact (update_of_ne different _ _).trans (update_of_ne apart _ _)

theorem removeNext_self : removeNext next prev a a = none := by
  cases link : prev a <;> simp only [removeNext, link, update_self]

theorem removePrev_self : removePrev next prev a a = none := by
  cases link : next a <;> simp only [removePrev, link, update_self]

theorem removePath {start back : Option α} (path : DoublePath next prev start back l)
    (inside : a ∈ l) (distinct : l.Nodup) (before : ∀ b, back = some b → b ∉ l) :
    DoublePath (removeNext next prev a) (removePrev next prev a) (removeHead next start a) back (l.erase a) := by
  induction l generalizing start back with
  | nil => simp at inside
  | cons b l ih =>
    obtain ⟨rfl, link, rest⟩ := path
    rw [List.nodup_cons] at distinct
    by_cases here : b = a
    · -- The first cell is taken out: the second one takes its place.
      subst here
      rw [List.erase_cons_head, removeHead, if_pos rfl]
      cases l with
      | nil => exact rest
      | cons c l =>
        obtain ⟨follow, link', rest'⟩ := rest
        have distinct' := List.nodup_cons.mp distinct.2
        have apart : c ≠ b := (ne_of_mem_of_not_mem List.mem_cons_self distinct.1)
        have behind : prev b ≠ some c := by
          rw [link]
          exact fun same => before c same (List.mem_cons_of_mem b List.mem_cons_self)
        refine ⟨follow, ?_, ?_⟩
        · rw [removePrev, follow]
          change update (update prev c (prev b)) b none c = back
          rw [update_of_ne apart, update_self, link]
        rw [removeNext_of_ne apart behind]
        refine rest'.congr (fun d member => ?_) fun d member => ?_
        · have away : d ≠ b := ne_of_mem_of_not_mem (List.mem_cons_of_mem c member) distinct.1
          refine removeNext_of_ne away ?_
          rw [link]
          exact fun same => before d same (List.mem_cons_of_mem b (List.mem_cons_of_mem c member))
        · have away : d ≠ b := ne_of_mem_of_not_mem (List.mem_cons_of_mem c member) distinct.1
          refine removePrev_of_ne away ?_
          rw [follow]
          rintro same
          exact distinct'.1 (Option.some.inj same ▸ member)
    · -- A later cell is taken out.
      have later : a ∈ l := (List.mem_cons.mp inside).resolve_left (Ne.symm here)
      have tail := ih rest later distinct.2 (fun c same => Option.some.inj same ▸ distinct.1)
      have ne : some b ≠ some a := fun same => here (Option.some.inj same)
      rw [List.erase_cons_tail (by simpa using here), removeHead, if_neg ne]
      refine ⟨rfl, ?_, ?_⟩
      · rw [removePrev_of_ne here (fun same => distinct.1 (rest.next_mem later same)), link]
      have follow : removeNext next prev a b = removeHead next (next b) a := by
        rcases rest.prev_cases later with ⟨link', behind⟩ | ⟨c, member, link', behind⟩
        · rw [removeNext, behind, removeHead, if_pos link']
          change update (update next b (next a)) a none b = next a
          rw [update_of_ne here, update_self]
        have other : c ≠ b := ne_of_mem_of_not_mem member distinct.1
        have notNext : next b ≠ some a := by
          intro same
          rw [same] at rest
          cases l with
          | nil => simp at later
          | cons d l =>
            obtain ⟨first, second, -⟩ := rest
            obtain rfl := Option.some.inj first
            exact other (Option.some.inj (behind.symm.trans second))
        rw [removeHead, if_neg notNext]
        refine removeNext_of_ne here ?_
        rw [behind]
        exact fun same => other (Option.some.inj same)
      rw [follow]
      exact tail

/-- A cell may be taken out; if it is not on the list, nothing changes. -/
theorem remove (list : Doubly next prev head cells) (a : α) :
    Doubly (removeNext next prev a) (removePrev next prev a) (removeHead next head a) (cells.erase a) := by
  by_cases inside : a ∈ cells
  · refine ⟨removePath list.path inside list.nodup (by simp), fun b away => ?_⟩
    by_cases here : b = a
    · subst here
      exact ⟨removeNext_self, removePrev_self⟩
    have outer : b ∉ cells := fun member => away ((List.mem_erase_of_ne here).mpr member)
    obtain ⟨forward, backward⟩ := list.outside b outer
    constructor
    · rw [removeNext_of_ne here, forward]
      intro link
      rcases list.path.prev_cases inside with ⟨-, first⟩ | ⟨c, member, -, behind⟩
      · simp [first] at link
      · exact outer (Option.some.inj (behind.symm.trans link) ▸ member)
    · rw [removePrev_of_ne here, backward]
      exact fun link => outer (list.path.next_mem inside link)
  obtain ⟨forward, backward⟩ := list.outside a inside
  have sameNext : removeNext next prev a = next := by
    rw [removeNext, backward]
    exact (congrArg (update next a) forward.symm).trans (Function.update_eq_self a next)
  have samePrev : removePrev next prev a = prev := by
    rw [removePrev, forward]
    exact (congrArg (update prev a) backward.symm).trans (Function.update_eq_self a prev)
  have sameHead : removeHead next head a = head := by
    refine if_neg fun first => inside ?_
    have path := list.path
    cases cells with
    | nil => exact absurd path (by simp [DoublePath, first])
    | cons b l => exact Option.some.inj (path.1.symm.trans first) ▸ List.mem_cons_self
  rw [sameNext, samePrev, sameHead, List.erase_of_not_mem inside]
  exact list

end Doubly

end Linked
