import Ghdl.Tables.ListRuns
import Ghdl.Tables.Flists

/-!
# Runs of lists of fixed length

Each descriptor has elements of its own, as many as the length with which it was first created; it is either live or on
the free list of that length. The links of the free lists are kept in the descriptors and the elements of lists that
are not live, so they never meet the elements of a live one.
-/

namespace Ghdl.Tables

open Fallible Linked Function

variable {s s' : Flists} {contents contents' : Nat → Option (List Nat)} {size : Nat → Nat} {cells cells' : Nat → List Nat}
  {f g : Nat} {fs xs : List Nat}

/-- The links of the free lists. -/
def flinks (s : Flists) (contents : Nat → Option (List Nat)) (size : Nat → Nat) : Nat → Option (Option Nat) := fun f =>
  if (4 ≤ f ∧ f ≤ s.flistLast) ∧ contents f = none then
    some (ref (if size f < freeLast then (s.flistt f).len else s.els (s.flistt f).els))
  else none

/-- The elements of two descriptors are apart. -/
def EntryType.Apart (e e' : EntryType) (n n' : Nat) : Prop := e.els + n ≤ e'.els ∨ e'.els + n' ≤ e.els

/-- The tables hold the contents of the live lists. -/
structure FlistHolds (s : Flists) (contents : Nat → Option (List Nat)) (size : Nat → Nat) (cells : Nat → List Nat) : Prop where
  family : Family (flinks s contents size) (fun i => (cells i).head?) cells
  freeHead : ∀ i ≤ freeLast, ref (s.freeFlists i) = (cells i).head?
  sizes : ∀ i, ∀ f ∈ cells i, i = min (size f) freeLast
  large : ∀ f ∈ cells freeLast, (s.flistt f).len = size f
  least : 3 ≤ s.flistLast
  within : ∀ f, 4 ≤ f → f ≤ s.flistLast → (s.flistt f).els + size f ≤ s.elsNbr
  apart : ∀ f g, 4 ≤ f → f ≤ s.flistLast → 4 ≤ g → g ≤ s.flistLast → f ≠ g →
    (s.flistt f).Apart (s.flistt g) (size f) (size g)
  live : ∀ f xs, contents f = some xs → (4 ≤ f ∧ f ≤ s.flistLast) ∧ (s.flistt f).len = xs.length ∧ size f = xs.length ∧
    ∀ n x, xs[n]? = some x → s.els ((s.flistt f).els + n) = x

/-- Only the lengths and the elements of these descriptors are changed. -/
structure Frame (fs : List Nat) (size : Nat → Nat) (s s' : Flists) : Prop where
  last : s'.flistLast = s.flistLast
  nbr : s'.elsNbr = s.elsNbr
  starts : ∀ f, (s'.flistt f).els = (s.flistt f).els
  lens : ∀ f, f ∉ fs → (s'.flistt f).len = (s.flistt f).len
  outside : ∀ i, (∀ f ∈ fs, i < (s.flistt f).els ∨ (s.flistt f).els + size f ≤ i) → s'.els i = s.els i

theorem entry_ok (bounds : 4 ≤ f ∧ f ≤ s.flistLast) : s.entry f = .ok (s.flistt f) := if_pos bounds

theorem FlistHolds.known {i : Nat} (holds : FlistHolds s contents size cells) (inside : f ∈ cells i) :
    (4 ≤ f ∧ f ≤ s.flistLast) ∧ contents f = none := by
  have linked := holds.family.linked_iff.mpr ⟨i, inside⟩
  by_contra outside
  exact linked (if_neg outside)

theorem flinks_eq (bounds : 4 ≤ f ∧ f ≤ s.flistLast) (dead : contents f = none) :
    flinks s contents size f = some (ref (if size f < freeLast then (s.flistt f).len else s.els (s.flistt f).els)) :=
  if_pos ⟨bounds, dead⟩

theorem setLen_frame (n : Nat) (frees : Nat → Nat) :
    Frame [f] size s { s with flistt := update s.flistt f { s.flistt f with len := n }, freeFlists := frees } where
  last := rfl
  nbr := rfl
  starts g := by
    show (update s.flistt f { s.flistt f with len := n } g).els = _
    by_cases here : g = f
    · rw [here, update_self]
    · rw [update_of_ne here]
  lens g other := by
    show (update s.flistt f { s.flistt f with len := n } g).len = _
    rw [update_of_ne fun here => other (List.mem_singleton.mpr here)]
  outside _ _ := rfl

theorem FlistHolds.outside (holds : FlistHolds s contents size cells) (known : ∀ f ∈ fs, 4 ≤ f ∧ f ≤ s.flistLast)
    (bounds : 4 ≤ g ∧ g ≤ s.flistLast) (other : g ∉ fs) {n : Nat} (small : n < size g) :
    ∀ f ∈ fs, (s.flistt g).els + n < (s.flistt f).els ∨ (s.flistt f).els + size f ≤ (s.flistt g).els + n := by
  intro f inside
  obtain ⟨low, high⟩ := known f inside
  rcases holds.apart f g low high bounds.1 bounds.2 fun same => other (same ▸ inside) with before | after
  · right
    omega
  · left
    omega

theorem Frame.flinks (frame : Frame fs size s s') (holds : FlistHolds s contents size cells)
    (known : ∀ f ∈ fs, 4 ≤ f ∧ f ≤ s.flistLast) (same : ∀ g, g ∉ fs → contents' g = contents g) (other : g ∉ fs) :
    flinks s' contents' size g = flinks s contents size g := by
  unfold Tables.flinks
  rw [frame.last, same g other, frame.lens g other, frame.starts]
  by_cases free : (4 ≤ g ∧ g ≤ s.flistLast) ∧ contents g = none
  · rw [if_pos free, if_pos free]
    by_cases small : size g < freeLast
    · rw [if_pos small, if_pos small]
    have positive : 0 < size g := by
      unfold freeLast at small
      omega
    have kept := frame.outside ((s.flistt g).els + 0) (holds.outside known free.1 other positive)
    rw [Nat.add_zero] at kept
    rw [if_neg small, if_neg small, kept]
  · rw [if_neg free, if_neg free]

theorem FlistHolds.modify (holds : FlistHolds s contents size cells) (frame : Frame fs size s s')
    (known : ∀ f ∈ fs, 4 ≤ f ∧ f ≤ s.flistLast) (same : ∀ g, g ≠ f → contents' g = contents g)
    (dead : ∀ g ∈ fs, g ≠ f → contents g = none)
    (family : Family (flinks s' contents' size) (fun i => (cells' i).head?) cells')
    (freeHead : ∀ i ≤ freeLast, ref (s'.freeFlists i) = (cells' i).head?)
    (sizes : ∀ i, ∀ f ∈ cells' i, i = min (size f) freeLast) (large : ∀ f ∈ cells' freeLast, (s'.flistt f).len = size f)
    (mine : ∀ xs, contents' f = some xs → (4 ≤ f ∧ f ≤ s.flistLast) ∧ (s'.flistt f).len = xs.length ∧ size f = xs.length ∧
      ∀ n x, xs[n]? = some x → s'.els ((s.flistt f).els + n) = x) : FlistHolds s' contents' size cells' where
  family := family
  freeHead := freeHead
  sizes := sizes
  large := large
  least := frame.last ▸ holds.least
  within g low high := by
    rw [frame.starts, frame.nbr]
    exact holds.within g low (frame.last ▸ high)
  apart g h low high low' high' different := by
    unfold EntryType.Apart
    rw [frame.starts, frame.starts]
    exact holds.apart g h low (frame.last ▸ high) low' (frame.last ▸ high') different
  live g xs isLive := by
    rw [frame.last, frame.starts]
    by_cases here : g = f
    · subst here
      exact mine xs isLive
    rw [same g here] at isLive
    have other : g ∉ fs := fun inside => absurd (isLive.symm.trans (dead g inside here)) nofun
    obtain ⟨bounds, len, isSize, elements⟩ := holds.live g xs isLive
    refine ⟨bounds, (frame.lens g other).trans len, isSize, fun n x isX => ?_⟩
    have small : n < size g := isSize ▸ (List.getElem?_eq_some_iff.mp isX).1
    rw [frame.outside _ (holds.outside known bounds other small)]
    exact elements n x isX

theorem FlistHolds.destroy (holds : FlistHolds s contents size cells) (live : contents f = some xs) :
    ∃ s', s.destroyFlist f = .ok s' ∧ ∃ cells', FlistHolds s' (update contents f none) size cells' := by
  obtain ⟨bounds, len, isSize, -⟩ := holds.live f xs live
  have within := holds.within f bounds.1 bounds.2
  have unlinked : flinks s contents size f = none := if_neg fun free => by
    rw [live] at free
    cases free.2
  have known : ∀ g ∈ [f], 4 ≤ g ∧ g ≤ s.flistLast := fun g inside => List.mem_singleton.mp inside ▸ bounds
  have same : ∀ g, g ≠ f → update contents f none g = contents g := fun g other => update_of_ne other _ _
  have dead : ∀ g ∈ [f], g ≠ f → contents g = none := fun g inside other => absurd (List.mem_singleton.mp inside) other
  obtain ⟨i, isI⟩ : ∃ i, i = min (size f) freeLast := ⟨_, rfl⟩
  have index : i ≤ freeLast := isI ▸ Nat.min_le_right _ _
  have pushed := (holds.family.push unlinked i).canonical
  -- The list is in front of the free ones, and its link is to the first one.
  have finish : ∀ s', Frame [f] size s s' → s'.freeFlists = update s.freeFlists i f →
      (if size f < freeLast then (s'.flistt f).len else s'.els (s'.flistt f).els) = s.freeFlists i →
      (¬ size f < freeLast → (s'.flistt f).len = size f) →
      ∃ cells', FlistHolds s' (update contents f none) size cells' := by
    intro s' frame frees link lens
    refine ⟨update cells i (f :: cells i), holds.modify frame known same dead ?_ ?_ ?_ ?_ fun ys isLive => ?_⟩
    · have links : flinks s' (update contents f none) size =
          update (flinks s contents size) f (some (cells i).head?) := by
        funext g
        by_cases here : g = f
        · rw [here, update_self, flinks_eq (frame.last.symm ▸ bounds) (update_self _ _ _), link,
            holds.freeHead i index]
        · rw [update_of_ne here]
          exact frame.flinks holds known (fun g other => same g fun here => other (here ▸ List.mem_singleton_self f))
            fun inside => here (List.mem_singleton.mp inside)
      rw [links]
      exact pushed
    · intro j high
      rw [frees]
      by_cases here : j = i
      · rw [here, update_self, update_self]
        exact ref_some (by omega)
      · rw [update_of_ne here, update_of_ne here]
        exact holds.freeHead j high
    · intro j g inside
      by_cases here : j = i
      · rw [here, update_self] at inside
        rcases List.mem_cons.mp inside with rfl | inside
        · exact here.trans isI
        · exact here.trans (holds.sizes i g inside)
      · rw [update_of_ne here] at inside
        exact holds.sizes j g inside
    · intro g inside
      by_cases isF : g = f
      · subst isF
        refine lens fun small => ?_
        by_cases here : freeLast = i
        · omega
        · rw [update_of_ne here] at inside
          exact holds.family.not_mem unlinked _ inside
      rw [frame.lens g fun inside => isF (List.mem_singleton.mp inside)]
      refine holds.large g ?_
      by_cases here : freeLast = i
      · rw [here, update_self] at inside
        exact here ▸ (List.mem_cons.mp inside).resolve_left isF
      · rwa [update_of_ne here] at inside
    · rw [update_self] at isLive
      cases isLive
  unfold Flists.destroyFlist Flists.length
  rw [entry_ok bounds]
  dsimp only [bind, Except.bind]
  rw [len, ← isSize]
  by_cases isLarge : freeLast ≤ size f
  · have sixteen : i = freeLast := by omega
    have room : (s.flistt f).els < s.elsNbr := by
      unfold freeLast at isLarge
      omega
    rw [if_pos isLarge]
    refine ⟨_, if_pos room, finish _ ⟨rfl, rfl, fun _ => rfl, fun _ _ => rfl, fun j away => ?_⟩ (by rw [sixteen]) ?_ fun _ => len.trans isSize.symm⟩
    · have away' := away f (List.mem_singleton_self f)
      refine update_of_ne ?_ _ _
      unfold freeLast at isLarge
      omega
    · rw [if_neg (by omega), sixteen]
      exact update_self _ _ _
  · have isIndex : i = size f := by omega
    rw [if_neg isLarge]
    refine ⟨_, if_pos bounds, finish _ (setLen_frame _ _) (by rw [isIndex]) ?_ fun notSmall => absurd (by omega) notSmall⟩
    rw [if_pos (by omega), isIndex]
    show (update s.flistt f { s.flistt f with len := s.freeFlists (size f) } f).len = _
    rw [update_self]

/-- The elements of a descriptor. -/
def elementsOf (s : Flists) (f n : Nat) : List Nat := (List.range n).map fun k => s.els ((s.flistt f).els + k)

theorem elementsOf_get {n k x : Nat} (isX : (elementsOf s f n)[k]? = some x) : s.els ((s.flistt f).els + k) = x := by
  unfold elementsOf at isX
  obtain ⟨within, isElement⟩ := List.getElem?_eq_some_iff.mp isX
  rw [List.getElem_map, List.getElem_range] at isElement
  exact isElement

theorem FlistHolds.write {ys : List Nat} (holds : FlistHolds s contents size cells) (live : contents f = some xs)
    (frame : Frame [f] size s s') (lists : s'.flistt = s.flistt) (frees : s'.freeFlists = s.freeFlists)
    (count : ys.length = xs.length) (elements : ∀ n x, ys[n]? = some x → s'.els ((s.flistt f).els + n) = x) :
    FlistHolds s' (update contents f (some ys)) size cells := by
  obtain ⟨bounds, len, isSize, -⟩ := holds.live f xs live
  have known : ∀ g ∈ [f], 4 ≤ g ∧ g ≤ s.flistLast := fun g inside => List.mem_singleton.mp inside ▸ bounds
  have links : flinks s' (update contents f (some ys)) size = flinks s contents size := by
    funext g
    by_cases here : g = f
    · rw [here, flinks, flinks, if_neg, if_neg]
      · rw [live]
        exact fun free => nomatch free.2
      · rw [update_self]
        exact fun free => nomatch free.2
    · exact frame.flinks holds known (fun g other => update_of_ne (fun here => other (List.mem_singleton.mpr here)) _ _)
        fun inside => here (List.mem_singleton.mp inside)
  refine holds.modify frame known (fun g other => update_of_ne other _ _)
    (fun g inside other => absurd (List.mem_singleton.mp inside) other) (links ▸ holds.family) (frees ▸ holds.freeHead) holds.sizes
    (lists ▸ holds.large) fun zs isLive => ?_
  rw [update_self] at isLive
  obtain rfl := Option.some.inj isLive
  rw [lists, len, isSize, count]
  exact ⟨bounds, rfl, rfl, elements⟩

section

variable (holds : FlistHolds s contents size cells)
include holds

theorem FlistHolds.clear (live : contents f = some xs) :
    ∃ s', s.clear f xs.length = .ok s' ∧
      FlistHolds s' (update contents f (some (List.replicate xs.length 0))) size cells := by
  obtain ⟨bounds, len, isSize, -⟩ := holds.live f xs live
  have within := holds.within f bounds.1 bounds.2
  rw [isSize] at within
  unfold Flists.clear
  rw [entry_ok bounds]
  refine ⟨_, if_pos (Or.inr within), holds.write live ⟨rfl, rfl, fun _ => rfl, fun _ _ => rfl, fun i away => if_neg ?_⟩ rfl rfl
    List.length_replicate fun n x isX => ?_⟩
  · have away' := away f (List.mem_singleton_self f)
    omega
  obtain ⟨small, isZero⟩ := List.getElem?_eq_some_iff.mp isX
  rw [List.length_replicate] at small
  rw [List.getElem_replicate] at isZero
  rw [← isZero]
  exact if_pos ⟨Nat.le_add_right _ _, by omega⟩

theorem FlistHolds.set (live : contents f = some xs) {n : Nat} (small : n < xs.length)
    (v : Nat) : ∃ s', s.setNthElement f n v = .ok s' ∧ FlistHolds s' (update contents f (some (xs.set n v))) size cells := by
  obtain ⟨bounds, len, isSize, elements⟩ := holds.live f xs live
  have within := holds.within f bounds.1 bounds.2
  have room : (s.flistt f).els + n < s.elsNbr := by omega
  unfold Flists.setNthElement
  rw [entry_ok bounds]
  dsimp only [bind, Except.bind]
  rw [if_pos (len.symm ▸ small)]
  refine ⟨_, if_pos room, holds.write live ⟨rfl, rfl, fun _ => rfl, fun _ _ => rfl, fun i away => ?_⟩ rfl rfl
    List.length_set fun k x isX => ?_⟩
  · have away' := away f (List.mem_singleton_self f)
    exact update_of_ne (by omega) _ _
  show update s.els ((s.flistt f).els + n) v ((s.flistt f).els + k) = x
  by_cases here : k = n
  · rw [here, List.getElem?_set_self small] at isX
    rw [here, update_self]
    exact Option.some.inj isX
  · rw [List.getElem?_set_ne (Ne.symm here)] at isX
    rw [update_of_ne (by omega)]
    exact elements k x isX

theorem FlistHolds.take {i : Nat} (inside : f ∈ cells i) (frame : Frame fs size s s')
    (known : ∀ g ∈ fs, ∃ j, g ∈ cells j) (len : (s'.flistt f).len = size f)
    (family : Family (update (flinks s' contents size) f none) (fun i => (cells' i).head?) cells')
    (freeHead : ∀ i ≤ freeLast, ref (s'.freeFlists i) = (cells' i).head?) (sub : ∀ i, cells' i ⊆ cells i)
    (large : ∀ g ∈ cells' freeLast, (s'.flistt g).len = size g) :
    FlistHolds s' (update contents f (some (elementsOf s' f (size f)))) size cells' := by
  have mine := holds.known inside
  have others : ∀ g ∈ fs, (4 ≤ g ∧ g ≤ s.flistLast) ∧ contents g = none := fun g member => by
    obtain ⟨j, member'⟩ := known g member
    exact holds.known member'
  have links : flinks s' (update contents f (some (elementsOf s' f (size f)))) size =
      update (flinks s' contents size) f none := by
    funext g
    by_cases here : g = f
    · rw [here, update_self, flinks, if_neg]
      rw [update_self]
      exact fun free => nomatch free.2
    · rw [update_of_ne here, flinks, flinks, update_of_ne here]
  refine holds.modify frame (fun g member => (others g member).1) (fun g other => update_of_ne other _ _)
    (fun g member _ => (others g member).2) (links ▸ family) freeHead (fun i g member => holds.sizes i g (sub i member)) large
    fun xs isLive => ?_
  rw [update_self] at isLive
  obtain rfl := Option.some.inj isLive
  have count : (elementsOf s' f (size f)).length = size f := by
    unfold elementsOf
    rw [List.length_map, List.length_range]
  rw [count, len]
  refine ⟨mine.1, rfl, rfl, fun n x isX => ?_⟩
  rw [← frame.starts]
  exact elementsOf_get isX

end

/-- What is returned when a free list is looked for. -/
def FlistHolds.Taken (s s' : Flists) (contents : Nat → Option (List Nat)) (size : Nat → Nat) (len res : Nat) : Prop :=
  (res = 0 ∧ s' = s) ∨ (4 ≤ res ∧ contents res = none ∧ ∃ xs cells', xs.length = len ∧
    FlistHolds s' (update contents res (some xs)) size cells')

theorem ref_getD {n : Nat} {o : Option Nat} (isRef : ref n = o) : n = o.getD 0 := by
  rw [← isRef]
  unfold ref
  split
  · assumption
  · rfl

theorem FlistHolds.takeSmall (holds : FlistHolds s contents size cells) {len : Nat} (small : len < freeLast) :
    ∃ s' res, s.takeSmall len = .ok (s', res) ∧ FlistHolds.Taken s s' contents size len res := by
  have head := holds.freeHead len small.le
  unfold Flists.takeSmall
  dsimp only
  cases isCells : cells len with
  | nil =>
    rw [isCells] at head
    rw [if_pos (ref_eq_none.mp head)]
    exact ⟨s, _, rfl, Or.inl ⟨ref_eq_none.mp head, rfl⟩⟩
  | cons f l =>
    rw [isCells] at head
    obtain ⟨isF, positive⟩ := ref_eq_some.mp head
    have inside : f ∈ cells len := by rw [isCells]; exact List.mem_cons_self
    obtain ⟨bounds, dead⟩ := holds.known inside
    have isSize : size f = len := by
      have := holds.sizes len f inside
      omega
    obtain ⟨r, link, popped⟩ := holds.family.pop isCells
    have heads := popped.head_eq len
    rw [update_self, update_self] at heads
    have isNext : ref (s.flistt f).len = r := by
      rw [flinks_eq bounds dead, if_pos (isSize.symm ▸ small)] at link
      exact Option.some.inj link
    rw [if_neg positive, isF, entry_ok bounds]
    dsimp only [bind, Except.bind]
    unfold Flists.setLen
    rw [if_pos bounds]
    have frame : Frame [f] size s { s with
        flistt := update s.flistt f { s.flistt f with len := len }
        freeFlists := update s.freeFlists len (s.flistt f).len } := setLen_frame _ _
    refine ⟨_, f, rfl, Or.inr ⟨bounds.1, dead, _, update cells len l, ?_, holds.take inside frame
      (fun g member => ⟨len, List.mem_singleton.mp member ▸ inside⟩) ?_ ?_ ?_ ?_ ?_⟩⟩
    · unfold elementsOf
      rw [List.length_map, List.length_range, isSize]
    · show (update s.flistt f { s.flistt f with len := len } f).len = _
      rw [update_self, isSize]
    · have links : update (flinks { s with
          flistt := update s.flistt f { s.flistt f with len := len }
          freeFlists := update s.freeFlists len (s.flistt f).len } contents size) f none =
          update (flinks s contents size) f none := by
        funext g
        by_cases here : g = f
        · rw [here, update_self, update_self]
        · rw [update_of_ne here, update_of_ne here]
          exact frame.flinks holds (fun g member => List.mem_singleton.mp member ▸ bounds) (fun _ _ => rfl)
            fun member => here (List.mem_singleton.mp member)
      rw [links]
      exact popped.canonical
    · intro i high
      show ref (update s.freeFlists len (s.flistt f).len i) = _
      by_cases here : i = len
      · rw [here, update_self, update_self, isNext, heads]
      · rw [update_of_ne here, update_of_ne here]
        exact holds.freeHead i high
    · intro i g member
      by_cases here : i = len
      · rw [here, update_self] at member
        rw [here, isCells]
        exact List.mem_cons_of_mem f member
      · rwa [update_of_ne here] at member
    · intro g member
      have other : freeLast ≠ len := by omega
      rw [update_of_ne other] at member
      have isLarge := holds.sizes freeLast g member
      rw [frame.lens g fun here => ?_]
      · exact holds.large g member
      · rw [List.mem_singleton.mp here] at isLarge
        omega

theorem FlistHolds.freeNext {m l : List Nat} (holds : FlistHolds s contents size cells) (split : cells freeLast = m ++ f :: l) :
    s.freeNext f = .ok (l.head?.getD 0) ∧ (s.flistt f).els < s.elsNbr ∧ freeLast ≤ size f := by
  have inside : f ∈ cells freeLast := by rw [split]; simp
  obtain ⟨bounds, dead⟩ := holds.known inside
  have isLarge : freeLast ≤ size f := by
    have := holds.sizes freeLast f inside
    omega
  have path := holds.family.path freeLast
  rw [split] at path
  have link := path.link_eq
  rw [flinks_eq bounds dead, if_neg (by omega), Option.some.injEq] at link
  have within := holds.within f bounds.1 bounds.2
  have room : (s.flistt f).els < s.elsNbr := by
    unfold freeLast at isLarge
    omega
  refine ⟨?_, room, isLarge⟩
  unfold Flists.freeNext
  rw [entry_ok bounds, ← ref_getD link]
  exact if_pos room

section

variable (holds : FlistHolds s contents size cells)
include holds

theorem FlistHolds.findLarge (len : Nat) : ∀ (rest before : List Nat) (fuel : Nat),
    cells freeLast = before ++ rest → rest.length < fuel →
    ∃ prev res, s.findLarge len fuel (before.getLast?.getD 0) (rest.head?.getD 0) = .ok (prev, res) ∧
      (res = 0 ∨ ∃ m l, cells freeLast = m ++ res :: l ∧ prev = m.getLast?.getD 0 ∧ size res = len) := by
  intro rest
  induction rest with
  | nil =>
    intro before fuel split enough
    cases fuel with
    | zero => exact absurd enough (Nat.not_lt_zero _)
    | succ fuel => exact ⟨_, 0, if_pos rfl, Or.inl rfl⟩
  | cons f l ih =>
    intro before fuel split enough
    cases fuel with
    | zero => exact absurd enough (Nat.not_lt_zero _)
    | succ fuel =>
      have inside : f ∈ cells freeLast := by rw [split]; simp
      obtain ⟨bounds, -⟩ := holds.known inside
      have positive : f ≠ 0 := by omega
      have isLen : s.length f = .ok (s.flistt f).len := by
        unfold Flists.length
        rw [entry_ok bounds]
        rfl
      have isHead : (f :: l).head?.getD 0 = f := rfl
      rw [Flists.findLarge, isHead, if_neg positive, isLen]
      dsimp only [bind, Except.bind]
      by_cases other : (s.flistt f).len ≠ len
      · rw [if_pos other, (holds.freeNext split).1]
        have found := ih (before ++ [f]) fuel (by rw [split]; simp) (Nat.lt_of_succ_lt_succ enough)
        rw [List.getLast?_concat] at found
        exact found
      · rw [if_neg other]
        exact ⟨_, f, rfl, Or.inr ⟨before, l, split, rfl, (holds.large f inside).symm.trans (not_not.mp other)⟩⟩

theorem FlistHolds.takeLarge (len : Nat) :
    ∃ s' res, s.takeLarge len = .ok (s', res) ∧ FlistHolds.Taken s s' contents size len res := by
  have head := ref_getD (holds.freeHead freeLast le_rfl)
  have few : (cells freeLast).length ≤ s.flistLast + 1 :=
    (holds.family.path freeLast).length_le fun f inside => Nat.lt_succ_of_le (holds.known inside).1.2
  obtain ⟨prev, res, found, isRes⟩ := holds.findLarge len (cells freeLast) [] (s.flistLast + 2) rfl (by omega)
  unfold Flists.takeLarge
  rw [head]
  have found' : s.findLarge len (s.flistLast + 2) 0 ((cells freeLast).head?.getD 0) = .ok (prev, res) := found
  rw [found']
  dsimp only [bind, Except.bind]
  rcases isRes with zero | ⟨m, l, split, isPrev, isSize⟩
  · rw [if_pos zero]
    exact ⟨s, res, rfl, Or.inl ⟨zero, rfl⟩⟩
  have inside : res ∈ cells freeLast := by rw [split]; simp
  obtain ⟨bounds, dead⟩ := holds.known inside
  have positive : res ≠ 0 := by omega
  have count : ∀ s', (elementsOf s' res (size res)).length = len := fun s' => by
    unfold elementsOf
    rw [List.length_map, List.length_range, isSize]
  obtain ⟨next', room, isLarge⟩ := holds.freeNext split
  have isNext : ref (l.head?.getD 0) = l.head? := by
    cases isL : l with
    | nil => rfl
    | cons g l' =>
      have member : g ∈ cells freeLast := by rw [split, isL]; simp
      have := (holds.known member).1
      exact ref_some (by omega : g ≠ 0)
  have path := holds.family.path freeLast
  rw [split] at path
  have link := path.link_eq
  have sub : ∀ l', (∀ g ∈ l', g ∈ m ++ res :: l) → ∀ i, update cells freeLast l' i ⊆ cells i := fun l' sub' i g member => by
    by_cases here : i = freeLast
    · rw [here, update_self] at member
      rw [here, split]
      exact sub' g member
    · rwa [update_of_ne here] at member
  rw [if_neg positive, next']
  dsimp only
  rcases List.eq_nil_or_concat m with isM | ⟨m', b, isM⟩
  · -- It is the first one.
    rw [isM] at split isPrev
    have first : prev = 0 := isPrev
    rw [if_pos first]
    obtain ⟨r, link', popped⟩ := holds.family.pop split
    have frame : Frame [] size s { s with freeFlists := update s.freeFlists freeLast (l.head?.getD 0) } :=
      ⟨rfl, rfl, fun _ => rfl, fun _ _ => rfl, fun _ _ => rfl⟩
    refine ⟨_, res, rfl, Or.inr ⟨bounds.1, dead, _, update cells freeLast l, count _, holds.take inside frame
      (fun g member => absurd member List.not_mem_nil) (holds.large res inside) popped.canonical (fun i high => ?_)
      (sub l fun g member => by simp [member]) fun g member => ?_⟩⟩
    · show ref (update s.freeFlists freeLast (l.head?.getD 0) i) = _
      by_cases here : i = freeLast
      · rw [here, update_self, update_self, isNext]
      · rw [update_of_ne here, update_of_ne here]
        exact holds.freeHead i high
    · rw [update_self] at member
      exact holds.large g (by rw [split]; simp [member])
  · -- It is behind another one, whose link is redirected.
    rw [List.concat_eq_append] at isM
    have isB : prev = b := by
      rw [isPrev, isM, List.getLast?_concat]
      rfl
    have split' : cells freeLast = m' ++ b :: res :: l := by rw [split, isM, List.append_assoc]; rfl
    have member : b ∈ cells freeLast := by rw [split']; simp
    obtain ⟨bounds', dead'⟩ := holds.known member
    obtain ⟨-, room', isLarge'⟩ := holds.freeNext split'
    obtain ⟨r, link', unlinked⟩ := holds.family.unlink split'
    obtain rfl : l.head? = r := Option.some.inj (link.symm.trans link')
    have different : b ≠ res := fun same => by
      have distinct := holds.family.nodup freeLast
      rw [split', same] at distinct
      exact (List.nodup_cons.mp (List.nodup_append.mp distinct).2.1).1 List.mem_cons_self
    have start : (s.flistt b).els < (s.flistt b).els + size b := by
      unfold freeLast at isLarge'
      omega
    have frame : Frame [b] size s { s with els := update s.els (s.flistt b).els (l.head?.getD 0) } :=
      ⟨rfl, rfl, fun _ => rfl, fun _ _ => rfl, fun i away => by
        have away' := away b (List.mem_singleton_self b)
        exact update_of_ne (by omega) _ _⟩
    rw [if_neg (by omega : prev ≠ 0), isB, entry_ok bounds']
    dsimp only
    unfold Flists.setElement
    rw [if_pos room']
    refine ⟨_, res, rfl, Or.inr ⟨bounds.1, dead, _, update cells freeLast (m' ++ b :: l), count _,
      holds.take inside frame (fun g inside' => ⟨freeLast, List.mem_singleton.mp inside' ▸ member⟩) (holds.large res inside) ?_
      (fun i high => ?_) (sub _ fun g member => ?_) fun g member => ?_⟩⟩
    · have links : update (flinks { s with els := update s.els (s.flistt b).els (l.head?.getD 0) } contents size) res none =
          update (update (flinks s contents size) b (some l.head?)) res none := by
        congr 1
        funext g
        by_cases here : g = b
        · have large' : ¬ size b < freeLast := by omega
          rw [here, update_self]
          refine (if_pos ⟨bounds', dead'⟩).trans ?_
          rw [if_neg large']
          show some (ref (update s.els (s.flistt b).els (l.head?.getD 0) (s.flistt b).els)) = _
          rw [update_self, isNext]
        · rw [update_of_ne here]
          exact frame.flinks holds (fun g inside' => List.mem_singleton.mp inside' ▸ bounds') (fun _ _ => rfl)
            fun inside' => here (List.mem_singleton.mp inside')
      rw [links]
      exact unlinked.canonical
    · show ref (s.freeFlists i) = _
      rw [holds.freeHead i high]
      by_cases here : i = freeLast
      · rw [here, update_self, split']
        cases m' <;> rfl
      · rw [update_of_ne here]
    · rw [isM]
      rcases List.mem_append.mp member with front | back
      · simp [front]
      · rcases List.mem_cons.mp back with rfl | back
        · simp
        · simp [back]
    · rw [update_self] at member
      refine holds.large g ?_
      rw [split']
      rcases List.mem_append.mp member with front | back
      · simp [front]
      · rcases List.mem_cons.mp back with rfl | back
        · simp
        · simp [back]

theorem FlistHolds.newEntry {e : EntryType} {nbr : Nat} (more : s.elsNbr ≤ nbr)
    (room : e.els + e.len ≤ nbr) (fresh : s.elsNbr ≤ e.els ∨ e.els + e.len = 0) :
    contents (s.flistLast + 1) = none ∧ ∃ xs, xs.length = e.len ∧
      FlistHolds (Flists.newEntry { s with elsNbr := nbr } e).1 (update contents (s.flistLast + 1) (some xs))
        (update size (s.flistLast + 1) e.len) cells := by
  have least := holds.least
  have dead : contents (s.flistLast + 1) = none := by
    cases isLive : contents (s.flistLast + 1) with
    | none => rfl
    | some xs =>
      have := (holds.live _ xs isLive).1
      omega
  obtain ⟨s', isS'⟩ : ∃ s', s' = (Flists.newEntry { s with elsNbr := nbr } e).1 := ⟨_, rfl⟩
  have last : s'.flistLast = s.flistLast + 1 := by rw [isS']; rfl
  have mine : s'.flistt (s.flistLast + 1) = e := by rw [isS']; exact update_self _ _ _
  have others : ∀ f, f ≠ s.flistLast + 1 → s'.flistt f = s.flistt f := fun f other => by
    rw [isS']
    exact update_of_ne other _ _
  have els : s'.els = s.els := by rw [isS']; rfl
  have count : s'.elsNbr = nbr := by rw [isS']; rfl
  have frees : s'.freeFlists = s.freeFlists := by rw [isS']; rfl
  rw [← isS']
  clear isS'
  have sizes : ∀ f, f ≤ s.flistLast → update size (s.flistLast + 1) e.len f = size f := fun f high =>
    update_of_ne (by omega) _ _
  have inside : ∀ {f i}, f ∈ cells i → f ≤ s.flistLast := fun member => (holds.known member).1.2
  have length : (elementsOf s' (s.flistLast + 1) e.len).length = e.len := by
    unfold elementsOf
    rw [List.length_map, List.length_range]
  refine ⟨dead, elementsOf s' (s.flistLast + 1) e.len, length, ?_, ?_, ?_, ?_, ?_, ?_, ?_, ?_⟩
  · have links : flinks s' (update contents (s.flistLast + 1) (some (elementsOf s' (s.flistLast + 1) e.len)))
        (update size (s.flistLast + 1) e.len) = flinks s contents size := by
      funext f
      unfold flinks
      by_cases here : f = s.flistLast + 1
      · rw [here, if_neg, if_neg]
        · exact fun free => by omega
        · rw [update_self]
          exact fun free => nomatch free.2
      · rw [last, update_of_ne here, update_of_ne here, others f here, els]
        exact if_congr (and_congr_left fun _ => by omega) rfl rfl
    rw [links]
    exact holds.family
  · exact frees ▸ holds.freeHead
  · intro i f member
    rw [sizes f (inside member)]
    exact holds.sizes i f member
  · intro f member
    have high := inside member
    rw [sizes f high, others f (by omega)]
    exact holds.large f member
  · omega
  · intro f low high
    rw [count]
    by_cases here : f = s.flistLast + 1
    · rw [here, mine, update_self]
      exact room
    · have high' : f ≤ s.flistLast := by omega
      rw [others f here, sizes f high']
      exact (holds.within f low high').trans more
  · intro f g low high low' high' different
    unfold EntryType.Apart
    by_cases here : f = s.flistLast + 1
    · have old : g ≤ s.flistLast := by omega
      have within := holds.within g low' old
      rw [here, mine, update_self, others g (by omega), sizes g old]
      omega
    have old : f ≤ s.flistLast := by omega
    have within := holds.within f low old
    rw [others f here, sizes f old]
    by_cases here' : g = s.flistLast + 1
    · rw [here', mine, update_self]
      omega
    · have old' : g ≤ s.flistLast := by omega
      rw [others g here', sizes g old']
      exact holds.apart f g low old low' old' different
  · intro f xs isLive
    by_cases here : f = s.flistLast + 1
    · rw [here, update_self] at isLive
      obtain rfl := Option.some.inj isLive
      rw [here, mine, update_self, length, last]
      refine ⟨by omega, rfl, rfl, fun n x isX => ?_⟩
      have element := elementsOf_get isX
      rwa [mine] at element
    · rw [update_of_ne here] at isLive
      obtain ⟨bounds, len, isSize, elements⟩ := holds.live f xs isLive
      rw [others f here, sizes f bounds.2, last, els]
      exact ⟨by omega, len, isSize, elements⟩

end

theorem FlistHolds.finish {len res : Nat} (holds : FlistHolds s contents size cells)
    (taken : FlistHolds.Taken s s' contents size len res) : ∃ s'' f, Flists.finish len (s', res) = .ok (s'', f) ∧
      contents f = none ∧ ∃ size' cells', FlistHolds s'' (update contents f (some (List.replicate len 0))) size' cells' := by
  have clears : ∀ {middle : Flists} {f xs size' cells'}, xs.length = len →
      FlistHolds middle (update contents f (some xs)) size' cells' → ∃ s'', middle.clear f len = .ok s'' ∧
        FlistHolds s'' (update contents f (some (List.replicate len 0))) size' cells' := by
    intro middle f xs size' cells' count valid
    obtain ⟨s'', run, valid'⟩ := valid.clear (update_self f (some xs) contents)
    rw [Function.update_idem, count] at valid'
    exact ⟨s'', count ▸ run, valid'⟩
  unfold Flists.finish
  rcases taken with ⟨zero, same⟩ | ⟨low, dead, xs, cells', count, valid⟩
  · rw [zero, same, if_pos rfl]
    obtain ⟨dead, xs, count, valid⟩ := @FlistHolds.newEntry _ _ _ _ holds ⟨s.elsNbr, len⟩ (s.elsNbr + len) (Nat.le_add_right _ _) le_rfl
      (Or.inl le_rfl)
    obtain ⟨s'', run, valid'⟩ := clears count valid
    refine ⟨s'', s.flistLast + 1, ?_, dead, _, cells, valid'⟩
    show (Flists.clear (Flists.newEntry { s with elsNbr := s.elsNbr + len } ⟨s.elsNbr, len⟩).1 (s.flistLast + 1) len >>= _) = _
    rw [run]
    rfl
  · have positive : res ≠ 0 := by omega
    rw [if_neg positive]
    obtain ⟨s'', run, valid'⟩ := clears count valid
    refine ⟨s'', res, ?_, dead, size, cells', valid'⟩
    show (Flists.clear s' res len >>= _) = _
    rw [run]
    rfl

theorem FlistHolds.create (holds : FlistHolds s contents size cells) (len : Nat) : ∃ s' f, s.createFlist len = .ok (s', f) ∧
    contents f = none ∧ ∃ size' cells', FlistHolds s' (update contents f (some (List.replicate len 0))) size' cells' := by
  unfold Flists.createFlist
  by_cases isLarge : freeLast ≤ len
  · obtain ⟨s', res, run, taken⟩ := holds.takeLarge len
    rw [if_pos isLarge, run]
    exact holds.finish taken
  obtain ⟨s', res, run, taken⟩ := holds.takeSmall (Nat.lt_of_not_le isLarge)
  rw [if_neg isLarge, run]
  dsimp only [bind, Except.bind]
  by_cases quick : res = 0 ∧ len = 0
  · rw [if_pos quick]
    have same : s' = s := by
      rcases taken with ⟨-, same⟩ | ⟨low, -⟩
      · exact same
      · omega
    rw [same, quick.2]
    obtain ⟨dead, xs, count, valid⟩ := @FlistHolds.newEntry _ _ _ _ holds ⟨0, 0⟩ s.elsNbr le_rfl (Nat.zero_le _) (Or.inr rfl)
    obtain rfl := List.length_eq_zero_iff.mp count
    exact ⟨_, s.flistLast + 1, rfl, dead, _, cells, valid⟩
  · rw [if_neg quick]
    exact holds.finish taken

/-- The tables hold the live lists. -/
def FlistClient.Valid (client : FlistClient) : Prop := ∃ size cells, FlistHolds client.flists client.contents size cells

theorem FlistClient.Valid.step {client : FlistClient} (valid : client.Valid) (call : FlistCall)
    (enabled : call.enabled client = true) : ∃ client', client.step call = .ok client' ∧ client'.Valid := by
  obtain ⟨size, cells, holds⟩ := valid
  unfold FlistClient.step
  cases call with
  | create len =>
    obtain ⟨s', f, run, -, size', cells', holds'⟩ := holds.create len
    dsimp only
    rw [run]
    exact ⟨_, rfl, size', cells', holds'⟩
  | destroy f =>
    obtain ⟨xs, live⟩ := Option.isSome_iff_exists.mp enabled
    obtain ⟨s', run, cells', holds'⟩ := holds.destroy live
    dsimp only
    rw [run]
    exact ⟨_, rfl, size, cells', holds'⟩
  | set f n v =>
    have small : n < ((client.contents f).getD []).length := of_decide_eq_true enabled
    cases live : client.contents f with
    | none =>
      rw [live] at small
      exact absurd small (Nat.not_lt_zero _)
    | some xs =>
      rw [live] at small
      obtain ⟨s', run, holds'⟩ := holds.set live small v
      dsimp only
      rw [run, live]
      exact ⟨_, rfl, size, cells, holds'⟩

theorem FlistClient.init_valid : FlistClient.init.Valid := by
  refine ⟨fun _ => 0, fun _ => [], ⟨⟨fun _ => rfl, fun _ _ _ _ inside => absurd inside List.not_mem_nil, fun f linked => ?_⟩,
    fun _ _ => rfl, fun _ _ inside => absurd inside List.not_mem_nil, fun _ inside => absurd inside List.not_mem_nil, le_rfl,
    fun f low high => ?_, fun f g low high => ?_, fun f xs isLive => absurd isLive nofun⟩⟩
  · refine absurd (if_neg fun free => ?_) linked
    have bounds : 4 ≤ f ∧ f ≤ 3 := free.1
    omega
  all_goals
    have high' : f ≤ 3 := high
    omega

theorem FlistHolds.get (holds : FlistHolds s contents size cells) (live : contents f = some xs) :
    s.length f = .ok xs.length ∧ ∀ n x, xs[n]? = some x → s.getNthElement f n = .ok x := by
  obtain ⟨bounds, len, isSize, elements⟩ := holds.live f xs live
  have within := holds.within f bounds.1 bounds.2
  constructor
  · unfold Flists.length
    rw [entry_ok bounds, ← len]
    rfl
  intro n x isX
  have small := (List.getElem?_eq_some_iff.mp isX).1
  have room : (s.flistt f).els + n < s.elsNbr := by omega
  unfold Flists.getNthElement
  rw [entry_ok bounds]
  dsimp only [bind, Except.bind]
  rw [if_pos (len.symm ▸ small), ← elements n x isX]
  exact if_pos room

/-- In every run: a live list of nodes has as many elements as have been appended to it and enumerates these, also to an
iterator that was made before some of them were appended; a live list of fixed length has the length it was created with
and holds its elements, apart from those of the others; and each call about live lists succeeds. -/
theorem lists_runs {client : ListClient} (run : listSystem.Run (fun _ _ => True) ListClient.init client) {fixed : FlistClient}
    (run' : flistSystem.Run (fun _ _ => True) FlistClient.init fixed) :
    ((∀ l xs, client.contents l = some xs → client.lists.getNbrElements l = .ok xs.length ∧ client.lists.enumerate l = .ok xs) ∧
      (∀ cursor ∈ client.cursors, cursor.seen <+: cursor.start ∧ (cursor.it.isValid = false ↔ cursor.seen = cursor.start) ∧
        ∃ xs, client.contents cursor.list = some xs ∧ cursor.start <+: xs) ∧
      (∃ s l, client.lists.createList = .ok (s, l) ∧ client.contents l = none) ∧
      ∀ call, listSystem.enabled client call = true → ∃ client', client.step call = .ok client') ∧
    (∀ f xs, fixed.contents f = some xs → fixed.flists.length f = .ok xs.length ∧
      (∀ n x, xs[n]? = some x → fixed.flists.getNthElement f n = .ok x) ∧ ∀ g ys, fixed.contents g = some ys → g ≠ f →
        (fixed.flists.flistt f).Apart (fixed.flists.flistt g) xs.length ys.length) ∧
    (∀ len, ∃ s f, fixed.flists.createFlist len = .ok (s, f) ∧ fixed.contents f = none) ∧
    ∀ call, flistSystem.enabled fixed call = true → ∃ fixed', fixed.step call = .ok fixed' := by
  have valid : client.Valid := run.invariant ListClient.init_valid fun client call client' valid enabled _ result => by
    obtain ⟨next', step, valid'⟩ := valid.step call enabled
    exact Except.ok.inj (step.symm.trans result) ▸ valid'
  have valid' : fixed.Valid := run'.invariant FlistClient.init_valid fun fixed call fixed' valid enabled _ result => by
    obtain ⟨next', step, valid'⟩ := valid.step call enabled
    exact Except.ok.inj (step.symm.trans result) ▸ valid'
  refine ⟨⟨?_, ?_, ?_, fun call enabled => ?_⟩, ?_, ?_, fun call enabled => ?_⟩
  · obtain ⟨cells, frees, holds, -⟩ := valid
    exact fun l xs live => holds.enumerate live
  · obtain ⟨cells, frees, -, cursors⟩ := valid
    intro cursor inside
    have isValid := cursors cursor inside
    obtain ⟨first, last⟩ := isValid.exhausted
    obtain ⟨xs, -, live, start, -⟩ := isValid
    exact ⟨first, last, xs, live, start⟩
  · obtain ⟨cells, frees, holds, -⟩ := valid
    obtain ⟨s, l, rest, run, dead, -⟩ := holds.create
    exact ⟨s, l, run, dead⟩
  · obtain ⟨client', step, -⟩ := valid.step call enabled
    exact ⟨client', step⟩
  · obtain ⟨size, cells, holds⟩ := valid'
    intro f xs live
    obtain ⟨length, elements⟩ := holds.get live
    refine ⟨length, elements, fun g ys live' different => ?_⟩
    obtain ⟨bounds, -, isSize, -⟩ := holds.live f xs live
    obtain ⟨bounds', -, isSize', -⟩ := holds.live g ys live'
    rw [← isSize, ← isSize']
    exact holds.apart f g bounds.1 bounds.2 bounds'.1 bounds'.2 different.symm
  · obtain ⟨size, cells, holds⟩ := valid'
    intro len
    obtain ⟨s, f, run, dead, -⟩ := holds.create len
    exact ⟨s, f, run, dead⟩
  · obtain ⟨fixed', step, -⟩ := valid'.step call enabled
    exact ⟨fixed', step⟩

/-- A list whose descriptor and chunk come from one that was destroyed. -/
theorem lists_runs_recycled : ∃ client, listSystem.Run (fun _ _ => True) ListClient.init client ∧
    client.contents 2 = some [7, 8] ∧ client.lists.enumerate 2 = .ok [7, 8] := by
  have step {s t u : ListClient} (label : ListCall) := @Transition.System.Run.step _ _ _ listSystem (fun _ _ => True) s t u label
  have run₁ := step .create
    (@Transition.System.Run.refl _ _ _ listSystem (fun _ _ => True) ListClient.init) rfl trivial rfl
  have run₂ := step (.append 2 5) run₁ rfl trivial rfl
  have run₃ := step (.destroy 2) run₂ rfl trivial rfl
  have run₄ := step .create run₃ rfl trivial rfl
  have run₅ := step (.append 2 7) run₄ rfl trivial rfl
  have run₆ := step (.append 2 8) run₅ rfl trivial rfl
  have results := lists_runs run₆ (@Transition.System.Run.refl _ _ _ flistSystem (fun _ _ => True) FlistClient.init)
  exact ⟨_, run₆, rfl, (results.1.1 2 [7, 8] rfl).2⟩

end Ghdl.Tables
