import Ghdl.Linked.Segment

/-!
# Lists that share one link field

Several lists may be threaded through one link field, each cell being on at most one of them. The
link is then also the mark of the cells that are on a list: a cell without a link, `next a = none`,
is on none. `Family next head cells` says that, for each name `i` of a list, the links from `head i`
visit `cells i`, and that the linked cells are exactly those of the lists.
-/

namespace Linked

open Function

variable {α ι : Type*}

/-- Disjoint lists that share the links `next` and together hold every linked cell. -/
structure Family (next : α → Option (Option α)) (head : ι → Option α) (cells : ι → List α) :
    Prop where
  /-- The links from each head visit that list. -/
  path : ∀ i, Segment next (head i) (cells i) none
  /-- No cell is on two lists. -/
  disjoint : ∀ i j, i ≠ j → ∀ a ∈ cells i, a ∉ cells j
  /-- A linked cell is on a list. -/
  complete : ∀ a, next a ≠ none → ∃ i, a ∈ cells i

namespace Family

variable {next : α → Option (Option α)} {head head' : ι → Option α} {cells : ι → List α}
  {i j : ι} {a b : α} {l m : List α}

section

variable (family : Family next head cells)
include family

theorem linked_iff : next a ≠ none ↔ ∃ i, a ∈ cells i := by
  refine ⟨family.complete a, fun ⟨i, inside⟩ => ?_⟩
  obtain ⟨r, link⟩ := (family.path i).allocated a inside
  simp [link]

theorem not_mem (free : next a = none) (i : ι) :
    a ∉ cells i := fun inside => family.linked_iff.mpr ⟨i, inside⟩ free

/-- The cells of a list are distinct. -/
theorem nodup (i : ι) : (cells i).Nodup := (family.path i).nodup

theorem head_cons (front : cells i = a :: l) : head i = some a := by
  have path := family.path i
  rw [front] at path
  exact path.1

theorem head_none : head i = none ↔ cells i = [] := by
  have path := family.path i
  cases front : cells i with
  | nil =>
    rw [front] at path
    simpa using path
  | cons a l =>
    rw [front] at path
    simp [path.1]

theorem head_eq (i : ι) : head i = (cells i).head? := (family.path i).start_eq

/-- The lists depend on each head only by its value. -/
theorem congr_head (same : ∀ i, head' i = head i) : Family next head' cells where
  path i := same i ▸ family.path i
  disjoint := family.disjoint
  complete := family.complete

end

variable [DecidableEq α] [DecidableEq ι]

section

variable (family : Family next head cells)
include family

/-- A cell that is on no list may be put in front of any. -/
theorem push (free : next a = none) (i : ι) :
    Family (update next a (some (head i))) (update head i (some a)) (update cells i (a :: cells i)) where
  path j := by
    by_cases same : j = i
    · subst same
      rw [update_self, update_self]
      exact ⟨rfl, head j, update_self _ _ _, (Segment.update (family.not_mem free j) _).mpr (family.path j)⟩
    · rw [update_of_ne same, update_of_ne same]
      exact (Segment.update (family.not_mem free j) _).mpr (family.path j)
  disjoint j k apart b inside inside' := by
    by_cases first : j = i
    · subst first
      rw [update_self] at inside
      rw [update_of_ne apart.symm] at inside'
      rcases List.mem_cons.mp inside with rfl | inside
      · exact family.not_mem free k inside'
      · exact family.disjoint j k apart b inside inside'
    rw [update_of_ne first] at inside
    by_cases second : k = i
    · subst second
      rw [update_self] at inside'
      rcases List.mem_cons.mp inside' with rfl | inside'
      · exact family.not_mem free j inside
      · exact family.disjoint j k apart b inside inside'
    · rw [update_of_ne second] at inside'
      exact family.disjoint j k apart b inside inside'
  complete b linked := by
    by_cases same : b = a
    · exact ⟨i, by rw [update_self, same]; exact List.mem_cons_self⟩
    rw [update_of_ne same] at linked
    obtain ⟨j, inside⟩ := family.complete b linked
    refine ⟨j, ?_⟩
    by_cases here : j = i
    · subst here
      rw [update_self]
      exact List.mem_cons_of_mem a inside
    · rwa [update_of_ne here]

/-- The first cell of a list may be taken off. -/
theorem pop (front : cells i = a :: l) : ∃ r, next a = some r ∧
      Family (update next a none) (update head i r) (update cells i l) := by
  have path := family.path i
  rw [front] at path
  obtain ⟨-, r, link, rest⟩ := path
  have distinct := family.nodup i
  rw [front] at distinct
  have fresh : a ∉ l := (List.nodup_cons.mp distinct).1
  have mine : a ∈ cells i := by rw [front]; exact List.mem_cons_self
  have sub : ∀ j b, b ∈ update cells i l j → b ∈ cells j ∧ b ≠ a := by
    intro j b inside
    by_cases here : j = i
    · subst here
      rw [update_self] at inside
      rw [front]
      exact ⟨List.mem_cons_of_mem a inside, ne_of_mem_of_not_mem inside fresh⟩
    · rw [update_of_ne here] at inside
      refine ⟨inside, ?_⟩
      rintro rfl
      exact family.disjoint j i here b inside mine
  refine ⟨r, link, ⟨fun j => ?_, fun j k apart b inside inside' => ?_, fun b linked => ?_⟩⟩
  · by_cases here : j = i
    · subst here
      rw [update_self, update_self]
      exact (Segment.update fresh _).mpr rest
    · rw [update_of_ne here, update_of_ne here]
      exact (Segment.update (fun inside => family.disjoint j i here a inside mine) _).mpr (family.path j)
  · exact family.disjoint j k apart b (sub j b inside).1 (sub k b inside').1
  · by_cases same : b = a
    · rw [same, update_self] at linked
      exact absurd rfl linked
    rw [update_of_ne same] at linked
    obtain ⟨j, inside⟩ := family.complete b linked
    refine ⟨j, ?_⟩
    by_cases here : j = i
    · subst here
      rw [update_self]
      rw [front] at inside
      exact (List.mem_cons.mp inside).resolve_left same
    · rwa [update_of_ne here]

/-- A cell may be taken out after another one by redirecting the link to it. -/
theorem unlink (split : cells i = l ++ b :: a :: m) : ∃ r, next a = some r ∧
      Family (update (update next b (some r)) a none) head (update cells i (l ++ b :: m)) := by
  have path := family.path i
  rw [split] at path
  obtain ⟨s, before, rest⟩ := Segment.append_iff.mp path
  obtain ⟨rfl, t, linkB, rest⟩ := rest
  obtain ⟨rfl, r, link, after⟩ := rest
  have distinct := family.nodup i
  rw [split] at distinct
  simp only [List.nodup_append, List.nodup_cons, List.mem_cons, not_or] at distinct
  obtain ⟨-, ⟨⟨different, freshB⟩, freshA, -⟩, apart⟩ := distinct
  have beforeB : b ∉ l := fun inside => apart b inside b (.inl rfl) rfl
  have beforeA : a ∉ l := fun inside => apart a inside a (.inr (.inl rfl)) rfl
  have mineA : a ∈ cells i := by rw [split]; simp
  have mineB : b ∈ cells i := by rw [split]; simp
  have sub : ∀ j c, c ∈ update cells i (l ++ b :: m) j → c ∈ cells j := by
    intro j c inside
    by_cases here : j = i
    · subst here
      rw [update_self] at inside
      rw [split]
      simp only [List.mem_append, List.mem_cons] at inside ⊢
      tauto
    · rwa [update_of_ne here] at inside
  refine ⟨r, link, ⟨fun j => ?_, fun j k apart c inside inside' => ?_, fun c linked => ?_⟩⟩
  · by_cases here : j = i
    · subst here
      rw [update_self]
      refine Segment.append_iff.mpr ⟨some b, ?_, rfl, r, ?_, ?_⟩
      · exact (Segment.update beforeA _).mpr ((Segment.update beforeB _).mpr before)
      · rw [update_of_ne different, update_self]
      · exact (Segment.update freshA _).mpr ((Segment.update freshB _).mpr after)
    · rw [update_of_ne here]
      exact (Segment.update (fun inside => family.disjoint j i here a inside mineA) _).mpr
        ((Segment.update (fun inside => family.disjoint j i here b inside mineB) _).mpr (family.path j))
  · exact family.disjoint j k apart c (sub j c inside) (sub k c inside')
  · by_cases sameA : c = a
    · rw [sameA, update_self] at linked
      exact absurd rfl linked
    by_cases sameB : c = b
    · exact ⟨i, by rw [update_self, sameB]; simp⟩
    rw [update_of_ne sameA, update_of_ne sameB] at linked
    obtain ⟨j, inside⟩ := family.complete c linked
    refine ⟨j, ?_⟩
    by_cases here : j = i
    · subst here
      rw [update_self]
      rw [split] at inside
      simp only [List.mem_append, List.mem_cons] at inside ⊢
      tauto
    · rwa [update_of_ne here]

end

variable {κ : Type*} {heads : κ → Option α} {lists : ι ⊕ κ → List α}

omit [DecidableEq α] [DecidableEq ι] in
/-- Names without cells may be added. -/
theorem widen (family : Family next head cells) :
    Family next (Sum.elim head fun _ : κ => none) (Sum.elim cells fun _ => []) where
  path i := by
    cases i with
    | inl i => exact family.path i
    | inr k => rfl
  disjoint i j apart a inside inside' := by
    cases i with
    | inr k => exact absurd inside List.not_mem_nil
    | inl i =>
      cases j with
      | inr k => exact absurd inside' List.not_mem_nil
      | inl j => exact family.disjoint i j (fun same => apart (congrArg Sum.inl same)) a inside inside'
  complete a linked := by
    obtain ⟨i, inside⟩ := family.complete a linked
    exact ⟨.inl i, inside⟩

omit [DecidableEq α] [DecidableEq ι] in
/-- Names without cells may be left out. -/
theorem narrow (family : Family next (Sum.elim head heads) lists) (empty : ∀ i, lists (.inl i) = []) :
    Family next heads fun k => lists (.inr k) where
  path k := family.path (.inr k)
  disjoint k n apart a inside inside' :=
    family.disjoint (.inr k) (.inr n) (fun same => apart (Sum.inr.inj same)) a inside inside'
  complete a linked := by
    obtain ⟨i | k, inside⟩ := family.complete a linked
    · rw [empty i] at inside
      exact absurd inside List.not_mem_nil
    · exact ⟨k, inside⟩

end Family

end Linked
