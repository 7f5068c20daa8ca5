import Ghdl.Linked.Append
import Ghdl.Tables.Lists

/-!
# Runs of lists of nodes

The chunks of the live lists and those that are free are threaded through one link, each on one of these lists; the
descriptors that are free are chained. So an operation on a list leaves the chunks of the others alone, and a live list
enumerates what has been appended to it.
-/

namespace Ghdl.Tables

open Fallible Linked Function

variable {s s' : Lists} {contents : Nat → Option (List Nat)} {cells : Option Nat → List Nat} {frees ks xs : List Nat}
  {l c k x p : Nat}

/-- The link to an index, of which 0 is none. -/
def ref (n : Nat) : Option Nat := if n = 0 then none else some n

theorem ref_some (positive : c ≠ 0) : ref c = some c := if_neg positive

theorem ref_eq_some : ref c = some k ↔ c = k ∧ c ≠ 0 := by
  unfold ref
  split <;> simp_all

theorem ref_eq_none : ref c = none ↔ c = 0 := by
  unfold ref
  split <;> simp_all

/-- The links of the chunks in the table. -/
def links (s : Lists) : Nat → Option (Option Nat) := fun c =>
  if 1 ≤ c ∧ c ≤ s.chunkLast then some (ref (s.chunkt c).next) else none

/-- The links of the descriptors that are free. -/
def chain (s : Lists) : Nat → Option (Option Nat) := fun l =>
  if 2 ≤ l ∧ l ≤ s.listLast then some (ref (s.listt l).chunkIdx) else none

/-- The lists of cells that are threaded through the links. -/
abbrev Threads (next : Nat → Option (Option Nat)) (cells : Option Nat → List Nat) : Prop :=
  Family next (fun i => (cells i).head?) cells

/-- A live list has these elements in these chunks. -/
structure Record (s : Lists) (l : Nat) (ks xs : List Nat) : Prop where
  first : ref (s.listt l).first = ks.head?
  nbr : (s.listt l).nbr = xs.length
  shape : (ks = [] ∧ xs = [] ∧ (s.listt l).chunkIdx = chunkLen) ∨
    ∃ m, ks = m ++ [(s.listt l).last] ∧ (s.listt l).chunkIdx < chunkLen ∧
      xs.length = m.length * chunkLen + (s.listt l).chunkIdx + 1
  elements : ∀ p x, xs[p]? = some x → ∃ k, ks[p / chunkLen]? = some k ∧ (s.chunkt k).els (p % chunkLen) = x

/-- The tables hold the contents of the live lists. -/
structure Holds (s : Lists) (contents : Nat → Option (List Nat)) (cells : Option Nat → List Nat) (frees : List Nat) : Prop where
  threads : Threads (links s) cells
  freeHead : ref s.chunkFreeList = (cells none).head?
  path : Segment (chain s) (ref s.listFreeChain) frees none
  free : ∀ l, l ∈ frees ↔ 2 ≤ l ∧ l ≤ s.listLast ∧ contents l = none
  least : 1 ≤ s.listLast
  live : ∀ l xs, contents l = some xs → 2 ≤ l ∧ l ≤ s.listLast ∧ Record s l (cells (some l)) xs
  dead : ∀ l, contents l = none → cells (some l) = []

theorem list_ok (low : 2 ≤ l) (high : l ≤ s.listLast) : s.list l = .ok (s.listt l) := if_pos ⟨low, high⟩

theorem setList_ok (low : 2 ≤ l) (high : l ≤ s.listLast) (r : ListRecord) :
    s.setList l r = .ok { s with listt := update s.listt l r } := if_pos ⟨low, high⟩

theorem chunk_ok (low : 1 ≤ c) (high : c ≤ s.chunkLast) : s.chunk c = .ok (s.chunkt c) := if_pos ⟨low, high⟩

theorem setChunk_ok (low : 1 ≤ c) (high : c ≤ s.chunkLast) (r : ChunkType) :
    s.setChunk c r = .ok { s with chunkt := update s.chunkt c r } := if_pos ⟨low, high⟩

theorem Threads.bounds {i : Option Nat} (threads : Threads (links s) cells) (inside : c ∈ cells i) : 1 ≤ c ∧ c ≤ s.chunkLast := by
  have linked := threads.linked_iff.mpr ⟨i, inside⟩
  by_contra outside
  exact linked (if_neg outside)

theorem links_update (low : 1 ≤ c) (high : c ≤ s.chunkLast) (r : ChunkType) :
    links { s with chunkt := update s.chunkt c r } = update (links s) c (some (ref r.next)) := by
  funext a
  by_cases same : a = c
  · subst same
    rw [update_self]
    show (if 1 ≤ a ∧ a ≤ s.chunkLast then some (ref (update s.chunkt a r a).next) else none) = _
    rw [if_pos ⟨low, high⟩, update_self]
  · rw [update_of_ne same]
    show (if 1 ≤ a ∧ a ≤ s.chunkLast then some (ref (update s.chunkt c r a).next) else none) = _
    rw [update_of_ne same]
    rfl

theorem Record.congr (record : Record s l ks xs) (same : s'.listt l = s.listt l)
    (els : ∀ k ∈ ks, (s'.chunkt k).els = (s.chunkt k).els) : Record s' l ks xs := by
  refine ⟨by rw [same, record.first], by rw [same, record.nbr], by rw [same]; exact record.shape, fun p x isX => ?_⟩
  obtain ⟨k, isK, el⟩ := record.elements p x isX
  exact ⟨k, isK, by rw [els k (List.mem_of_getElem? isK), el]⟩

theorem quotient_last (last : p % chunkLen + 1 = chunkLen) : (p + 1) / chunkLen = p / chunkLen + 1 ∧ (p + 1) % chunkLen = 0 := by
  unfold chunkLen at *
  omega

theorem quotient_inner (inner : p % chunkLen + 1 ≠ chunkLen) :
    (p + 1) / chunkLen = p / chunkLen ∧ (p + 1) % chunkLen = p % chunkLen + 1 := by
  unfold chunkLen at *
  omega

/-- The iterator is at an element of a list, of which it visits the first ones. -/
def IsAt (ks : List Nat) (n : Nat) (it : Iterator) (p : Nat) : Prop :=
  p + it.remain = n ∧ (0 < it.remain → ks[p / chunkLen]? = some it.chunk ∧ it.chunkIdx = p % chunkLen)

theorem iterate_spec (low : 2 ≤ l) (high : l ≤ s.listLast) (record : Record s l ks xs) :
    ∃ it, s.iterate l = .ok it ∧ IsAt ks xs.length it 0 := by
  refine ⟨⟨(s.listt l).first, 0, (s.listt l).nbr⟩, ?_, by rw [Nat.zero_add]; exact record.nbr, fun more => ⟨?_, rfl⟩⟩
  · unfold Lists.iterate
    rw [list_ok low high]
    rfl
  have more' : 0 < xs.length := record.nbr ▸ more
  obtain ⟨k, isK, -⟩ := record.elements 0 xs[0] (List.getElem?_eq_getElem more')
  have first := record.first
  rw [Nat.zero_div, ← List.head?_eq_getElem?] at isK ⊢
  rw [isK] at first ⊢
  rw [(ref_eq_some.mp first).1]

theorem advance_spec {it : Iterator} {n : Nat} (record : Record s l ks xs) (known : ∀ k ∈ ks, 1 ≤ k ∧ k ≤ s.chunkLast)
    (path : Segment (links s) ks.head? ks none) (some' : n ≤ xs.length) (isAt : IsAt ks n it p) (valid : 0 < it.remain) :
    ∃ x it', xs[p]? = some x ∧ s.getElement it = .ok x ∧ s.next it = .ok it' ∧ IsAt ks n it' (p + 1) := by
  obtain ⟨count, position⟩ := isAt
  obtain ⟨isChunk, isIdx⟩ := position valid
  have within : p < xs.length := by omega
  obtain ⟨k, isK, el⟩ := record.elements p xs[p] (List.getElem?_eq_getElem within)
  obtain rfl := Option.some.inj (isChunk.symm.trans isK)
  have bounds := known it.chunk (List.mem_of_getElem? isK)
  have small : p % chunkLen < chunkLen := Nat.mod_lt p (by decide)
  have element : s.getElement it = .ok xs[p] := by
    unfold Lists.getElement
    rw [chunk_ok bounds.1 bounds.2]
    show (if it.chunkIdx < chunkLen then _ else _) = _
    rw [isIdx, if_pos small, el]
  by_cases last : it.chunkIdx + 1 = chunkLen
  · refine ⟨xs[p], ⟨(s.chunkt it.chunk).next, 0, it.remain - 1⟩, List.getElem?_eq_getElem within, element, ?_, ?_, fun more => ?_⟩
    · unfold Lists.next
      rw [if_pos last, chunk_ok bounds.1 bounds.2]
      rfl
    · show p + 1 + (it.remain - 1) = _
      omega
    · have more' : p + 1 < xs.length := by
        have : 0 < it.remain - 1 := more
        omega
      obtain ⟨quotient, remainder⟩ := quotient_last (isIdx ▸ last)
      obtain ⟨k, isK', -⟩ := record.elements (p + 1) xs[p + 1] (List.getElem?_eq_getElem more')
      rw [quotient] at isK' ⊢
      -- The next chunk is that of the link.
      have link := path.next_eq isK isK'
      rw [links, if_pos bounds, Option.some.injEq] at link
      exact ⟨by rw [isK', (ref_eq_some.mp link).1], remainder.symm⟩
  · refine ⟨xs[p], { it with chunkIdx := it.chunkIdx + 1, remain := it.remain - 1 }, List.getElem?_eq_getElem within, element,
      ?_, ?_, fun _ => ?_⟩
    · unfold Lists.next
      rw [if_neg last]
    · show p + 1 + (it.remain - 1) = _
      omega
    · obtain ⟨quotient, remainder⟩ := quotient_inner (isIdx ▸ last)
      exact ⟨by rw [quotient]; exact isChunk, by rw [remainder]; exact congrArg (· + 1) isIdx⟩

theorem isValid_iff {it : Iterator} : it.isValid = true ↔ 0 < it.remain := decide_eq_true_iff

theorem visit_spec (record : Record s l ks xs) (known : ∀ k ∈ ks, 1 ≤ k ∧ k ≤ s.chunkLast)
    (path : Segment (links s) ks.head? ks none) (fuel : Nat) :
    ∀ it p, it.remain < fuel → IsAt ks xs.length it p → s.visit fuel it = .ok (xs.drop p) := by
  induction fuel with
  | zero => exact fun it p enough => absurd enough (Nat.not_lt_zero _)
  | succ fuel ih =>
    intro it p enough isAt
    rw [Lists.visit]
    by_cases valid : 0 < it.remain
    · obtain ⟨x, it', isX, element, next', isAt'⟩ := advance_spec record known path le_rfl isAt valid
      have count := isAt.1
      have count' := isAt'.1
      have within := (List.getElem?_eq_some_iff.mp isX).1
      rw [if_pos (isValid_iff.mpr valid), element]
      show (s.next it >>= _) = _
      rw [next']
      show (s.visit fuel it' >>= _) = _
      rw [ih it' (p + 1) (by omega) isAt', List.drop_eq_getElem_cons within, ← Option.some.inj
        ((List.getElem?_eq_getElem within).symm.trans isX)]
      rfl
    · have count := isAt.1
      rw [if_neg (fun isTrue => valid (isValid_iff.mp isTrue)), List.drop_eq_nil_of_le (by omega)]

theorem getFreeChunk_spec (threads : Threads (links s) cells) (freeHead : ref s.chunkFreeList = (cells none).head?) :
    ∃ s' c rest, s.getFreeChunk = .ok (s', c) ∧ s'.listt = s.listt ∧ s'.listLast = s.listLast ∧
      s'.listFreeChain = s.listFreeChain ∧ s'.chunkt = s.chunkt ∧ 1 ≤ c ∧ c ≤ s'.chunkLast ∧ (∀ l, c ∉ cells (some l)) ∧
      ref s'.chunkFreeList = rest.head? ∧ Threads (update (links s') c none) (update cells none rest) := by
  by_cases recycled : s.chunkFreeList ≠ 0
  · rw [ref_some recycled] at freeHead
    obtain ⟨rest, front⟩ : ∃ rest, cells none = s.chunkFreeList :: rest := by
      cases isCells : cells none with
      | nil => rw [isCells] at freeHead; cases freeHead
      | cons c rest =>
        rw [isCells] at freeHead
        exact ⟨rest, by rw [Option.some.inj freeHead]⟩
    have inside : s.chunkFreeList ∈ cells none := by rw [front]; exact List.mem_cons_self
    obtain ⟨low, high⟩ := threads.bounds inside
    obtain ⟨r, link, popped⟩ := threads.pop front
    have next' : ref (s.chunkt s.chunkFreeList).next = r := by
      rw [links, if_pos ⟨low, high⟩] at link
      exact Option.some.inj link
    have path := popped.head_eq none
    rw [update_self, update_self] at path
    refine ⟨{ s with chunkFreeList := (s.chunkt s.chunkFreeList).next }, s.chunkFreeList, rest, ?_, rfl, rfl, rfl, rfl, low, high,
      fun l => threads.disjoint none (some l) nofun _ inside, next'.trans path, popped.canonical⟩
    unfold Lists.getFreeChunk
    rw [if_pos recycled]
    dsimp only
    rw [chunk_ok low high]
    rfl
  · have zero : s.chunkFreeList = 0 := not_not.mp recycled
    have fresh : links s (s.chunkLast + 1) = none := if_neg (by omega)
    have same : update (links { s with chunkLast := s.chunkLast + 1 }) (s.chunkLast + 1) none = links s := by
      funext a
      by_cases isNew : a = s.chunkLast + 1
      · rw [isNew, update_self, fresh]
      · rw [update_of_ne isNew]
        show (if 1 ≤ a ∧ a ≤ s.chunkLast + 1 then some (ref (s.chunkt a).next) else none) = _
        rw [links]
        exact if_congr (by omega) rfl rfl
    refine ⟨{ s with chunkLast := s.chunkLast + 1 }, s.chunkLast + 1, cells none, if_neg recycled, rfl, rfl, rfl, rfl, by omega,
      le_rfl, fun l => threads.not_mem fresh (some l), freeHead, ?_⟩
    rw [same, Function.update_eq_self]
    exact threads

theorem Record.place (record : Record s l ks xs) : ((s.listt l).chunkIdx + 1 < chunkLen →
      ∃ m, ks = m ++ [(s.listt l).last] ∧ xs.length / chunkLen = m.length ∧ xs.length % chunkLen = (s.listt l).chunkIdx + 1) ∧
    (¬ (s.listt l).chunkIdx + 1 < chunkLen → xs.length / chunkLen = ks.length ∧ xs.length % chunkLen = 0 ∧
      (xs ≠ [] → ∃ m, ks = m ++ [(s.listt l).last])) := by
  rcases record.shape with ⟨isKs, isXs, full⟩ | ⟨m, isKs, small, count⟩
  · refine ⟨fun room => absurd room (by rw [full]; decide), fun _ => ?_⟩
    rw [isKs, isXs]
    exact ⟨rfl, rfl, fun some' => absurd rfl some'⟩
  unfold chunkLen at *
  refine ⟨fun room => ⟨m, isKs, ?_, ?_⟩, fun room => ⟨?_, ?_, fun _ => ⟨m, isKs⟩⟩⟩
  · omega
  · omega
  · rw [isKs, List.length_append, List.length_singleton]
    omega
  · omega

theorem Record.snoc (record : Record s l ks xs) {ks' : List Nat} (extends' : ks <+: ks')
    (kept : ∀ p k, p < xs.length → ks[p / chunkLen]? = some k →
      (s'.chunkt k).els (p % chunkLen) = (s.chunkt k).els (p % chunkLen))
    (place : ks'[xs.length / chunkLen]? = some c ∧ (s'.chunkt c).els (xs.length % chunkLen) = x)
    (first : ref (s'.listt l).first = ks'.head?) (nbr : (s'.listt l).nbr = xs.length + 1)
    (shape : ∃ m, ks' = m ++ [(s'.listt l).last] ∧ xs.length / chunkLen = m.length ∧
      xs.length % chunkLen = (s'.listt l).chunkIdx) : Record s' l ks' (xs ++ [x]) := by
  refine ⟨first, by rw [nbr, List.length_append, List.length_singleton], Or.inr ?_, fun p y isY => ?_⟩
  · obtain ⟨m, isKs', quotient, remainder⟩ := shape
    refine ⟨m, isKs', ?_, ?_⟩
    · rw [← remainder]
      exact Nat.mod_lt _ (by decide)
    · rw [← quotient, ← remainder, List.length_append, List.length_singleton, Nat.div_add_mod']
  · by_cases old : p < xs.length
    · rw [List.getElem?_append_left old] at isY
      obtain ⟨k, isK, el⟩ := record.elements p y isY
      refine ⟨k, ?_, by rw [kept p k old isK, el]⟩
      obtain ⟨more, rfl⟩ := extends'
      rw [List.getElem?_append_left (List.getElem?_eq_some_iff.mp isK).1]
      exact isK
    have last : p = xs.length := by
      have := (List.getElem?_eq_some_iff.mp isY).1
      rw [List.length_append, List.length_singleton] at this
      omega
    rw [last] at isY ⊢
    rw [List.getElem?_concat_length] at isY
    obtain rfl := Option.some.inj isY
    exact ⟨c, place⟩

theorem Holds.modify {cells' : Option Nat → List Nat} {xs' : List Nat} (holds : Holds s contents cells frees)
    (live : contents l = some xs) (descriptors : ∀ l', l' ≠ l → s'.listt l' = s.listt l') (last : s'.listLast = s.listLast)
    (freeChain : s'.listFreeChain = s.listFreeChain) (threads : Threads (links s') cells')
    (freeHead : ref s'.chunkFreeList = (cells' none).head?) (kept : ∀ l', l' ≠ l → cells' (some l') = cells (some l'))
    (els : ∀ l', l' ≠ l → ∀ k ∈ cells (some l'), (s'.chunkt k).els = (s.chunkt k).els)
    (record : Record s' l (cells' (some l)) xs') : Holds s' (update contents l (some xs')) cells' frees where
  threads := threads
  freeHead := freeHead
  path := by
    rw [freeChain]
    refine (Segment.congr fun a inside => ?_).mpr holds.path
    have other : a ≠ l := by
      rintro rfl
      exact absurd (live.symm.trans ((holds.free a).mp inside).2.2) nofun
    unfold chain
    rw [last, descriptors a other]
  free a := by
    rw [holds.free, last]
    by_cases same : a = l
    · subst same
      rw [update_self, live]
      simp
    · rw [update_of_ne same]
  least := last ▸ holds.least
  live a ys isLive := by
    rw [last]
    by_cases same : a = l
    · subst same
      rw [update_self] at isLive
      obtain rfl := Option.some.inj isLive
      exact ⟨(holds.live a xs live).1, (holds.live a xs live).2.1, record⟩
    · rw [update_of_ne same] at isLive
      obtain ⟨low, high, record'⟩ := holds.live a ys isLive
      exact ⟨low, high, kept a same ▸ record'.congr (descriptors a same) (els a same)⟩
  dead a isDead := by
    by_cases same : a = l
    · subst same
      rw [update_self] at isDead
      cases isDead
    · rw [update_of_ne same] at isDead
      rw [kept a same, holds.dead a isDead]

/-- The tables but for lists and chunks. -/
def Lists.SameHeads (s s' : Lists) : Prop :=
  s'.listLast = s.listLast ∧ s'.listFreeChain = s.listFreeChain

theorem appendElement_room (low : 2 ≤ l) (high : l ≤ s.listLast) (room : (s.listt l).chunkIdx + 1 < chunkLen)
    (lowK : 1 ≤ (s.listt l).last) (highK : (s.listt l).last ≤ s.chunkLast) (x : Nat) :
    ∃ s', s.appendElement l x = .ok s' ∧ s.SameHeads s' ∧ s'.chunkLast = s.chunkLast ∧ s'.chunkFreeList = s.chunkFreeList ∧
      s'.listt = update s.listt l
        { s.listt l with chunkIdx := (s.listt l).chunkIdx + 1, nbr := (s.listt l).nbr + 1 } ∧
      s'.chunkt = update s.chunkt (s.listt l).last { s.chunkt (s.listt l).last with
        els := update (s.chunkt (s.listt l).last).els ((s.listt l).chunkIdx + 1) x } := by
  unfold Lists.appendElement
  rw [list_ok low high]
  dsimp only [bind, Except.bind]
  rw [if_pos room, chunk_ok lowK highK]
  dsimp only
  rw [setChunk_ok lowK highK]
  exact ⟨_, if_pos ⟨low, high⟩, ⟨rfl, rfl⟩, rfl, rfl, rfl, rfl⟩

theorem Holds.append_room (holds : Holds s contents cells frees) (live : contents l = some xs)
    (room : (s.listt l).chunkIdx + 1 < chunkLen) (x : Nat) :
    ∃ s', s.appendElement l x = .ok s' ∧ Holds s' (update contents l (some (xs ++ [x]))) cells frees := by
  obtain ⟨low, high, record⟩ := holds.live l xs live
  obtain ⟨m, isKs, quotient, remainder⟩ := record.place.1 room
  have inside : (s.listt l).last ∈ cells (some l) := by rw [isKs]; simp
  obtain ⟨lowK, highK⟩ := holds.threads.bounds inside
  obtain ⟨s', run, ⟨last, freeChain⟩, chunkLast, freeList, listt, chunkt⟩ := appendElement_room low high room lowK highK x
  have others : ∀ k, k ≠ (s.listt l).last → s'.chunkt k = s.chunkt k := fun k other => by
    rw [chunkt, update_of_ne other]
  have descriptor : s'.listt l = { s.listt l with chunkIdx := (s.listt l).chunkIdx + 1, nbr := (s.listt l).nbr + 1 } := by
    rw [listt, update_self]
  have chunk : s'.chunkt (s.listt l).last = { s.chunkt (s.listt l).last with
      els := update (s.chunkt (s.listt l).last).els ((s.listt l).chunkIdx + 1) x } := by
    rw [chunkt, update_self]
  have sameLinks : links s' = links s := by
    funext a
    unfold links
    rw [chunkLast]
    by_cases same : a = (s.listt l).last
    · rw [same, chunk]
    · rw [others a same]
  refine ⟨s', run, holds.modify live (fun l' other => by rw [listt, update_of_ne other]) last freeChain
    (sameLinks ▸ holds.threads) (freeList ▸ holds.freeHead) (fun _ _ => rfl) (fun l' other k inside' => ?_) ?_⟩
  · rw [others k fun same => holds.threads.disjoint _ _ (fun same => other (Option.some.inj same)) k inside' (same ▸ inside)]
  have isLast : (cells (some l))[xs.length / chunkLen]? = some (s.listt l).last := by
    rw [quotient, isKs]
    simp
  refine record.snoc (c := (s.listt l).last) (List.prefix_refl _) (fun p k old isK => ?_) ⟨isLast, ?_⟩ ?_ ?_
    ⟨m, ?_, quotient, ?_⟩
  · by_cases same : k = (s.listt l).last
    · -- An element before it in the same chunk is at another place.
      rw [same, chunk]
      refine update_of_ne (fun place => ?_) _ _
      have index := (List.getElem?_inj (List.getElem?_eq_some_iff.mp isK).1 (holds.threads.nodup (some l))).mp
        (isK.trans (same ▸ isLast.symm))
      rw [← remainder] at place
      have position := Nat.div_add_mod' p chunkLen
      have position' := Nat.div_add_mod' xs.length chunkLen
      rw [index, place, position'] at position
      omega
    · rw [others k same]
  · rw [chunk, remainder]
    exact update_self _ _ _
  · rw [descriptor]
    exact record.first
  · rw [descriptor]
    exact congrArg (· + 1) record.nbr
  · rw [descriptor]
    exact isKs
  · rw [descriptor]
    exact remainder

theorem appendElement_behind {middle : Lists} (low : 2 ≤ l) (high : l ≤ s.listLast)
    (full : ¬ (s.listt l).chunkIdx + 1 < chunkLen) (free : s.getFreeChunk = .ok (middle, c)) (lists : middle.listt = s.listt)
    (last : middle.listLast = s.listLast) (lowC : 1 ≤ c) (highC : c ≤ middle.chunkLast)
    (known : (s.listt l).nbr ≠ 0 → 1 ≤ (s.listt l).last ∧ (s.listt l).last ≤ middle.chunkLast ∧ (s.listt l).last ≠ c) (x : Nat) :
    ∃ s', s.appendElement l x = .ok s' ∧ middle.SameHeads s' ∧ s'.chunkLast = middle.chunkLast ∧
      s'.chunkFreeList = middle.chunkFreeList ∧ s'.listt = update s.listt l
        ⟨if (s.listt l).nbr = 0 then c else (s.listt l).first, c, 0, (s.listt l).nbr + 1⟩ ∧
      (s'.chunkt c).els 0 = x ∧ (∀ k, k ≠ c → (s'.chunkt k).els = (middle.chunkt k).els) ∧
      links s' = if (s.listt l).nbr = 0 then update (links middle) c (some none)
        else update (update (links middle) c (some none)) (s.listt l).last (some (some c)) := by
  have positive : c ≠ 0 := by omega
  unfold Lists.appendElement
  rw [list_ok low high]
  dsimp only [bind, Except.bind]
  rw [if_neg full, free]
  dsimp only
  rw [chunk_ok lowC highC]
  dsimp only
  rw [setChunk_ok lowC highC]
  dsimp only
  have first := links_update lowC highC ⟨0, update (middle.chunkt c).els 0 x⟩
  obtain ⟨stored, isStored⟩ : ∃ stored : Lists, stored =
    { middle with chunkt := update middle.chunkt c ⟨0, update (middle.chunkt c).els 0 x⟩ } := ⟨_, rfl⟩
  rw [← isStored] at first ⊢
  have chunkLast : stored.chunkLast = middle.chunkLast := by rw [isStored]
  have listLast : stored.listLast = s.listLast := by rw [isStored, ← last]
  have element : (stored.chunkt c).els 0 = x := by
    rw [isStored]
    show (update middle.chunkt c ⟨0, update (middle.chunkt c).els 0 x⟩ c).els 0 = x
    rw [update_self]
    dsimp only
    rw [update_self]
  have others : ∀ k, k ≠ c → (stored.chunkt k).els = (middle.chunkt k).els := fun k other => by
    rw [isStored]
    show (update middle.chunkt c _ k).els = _
    rw [update_of_ne other]
  have descriptors : stored.listt = s.listt := by rw [isStored, ← lists]
  have heads : middle.SameHeads stored := by rw [isStored]; exact ⟨rfl, rfl⟩
  have freeList : stored.chunkFreeList = middle.chunkFreeList := by rw [isStored]
  clear isStored
  dsimp only [Lists.link]
  by_cases empty : (s.listt l).nbr = 0
  · rw [if_pos empty, if_pos empty, if_pos empty, ← descriptors]
    exact ⟨_, if_pos ⟨low, listLast ▸ high⟩, heads, chunkLast, freeList, by rw [descriptors], element, others, first⟩
  obtain ⟨lowK, highK, other⟩ := known empty
  rw [← chunkLast] at highK
  have second := links_update lowK highK { stored.chunkt (s.listt l).last with next := c }
  rw [first, ref_some positive] at second
  rw [if_neg empty, if_neg empty, if_neg empty, chunk_ok lowK highK]
  dsimp only [bind, Except.bind]
  rw [setChunk_ok lowK highK]
  refine ⟨_, if_pos ⟨low, listLast ▸ high⟩, heads, chunkLast, freeList, by rw [← descriptors], ?_, fun k other' => ?_, second⟩
  · show (update stored.chunkt _ _ c).els 0 = x
    rw [update_of_ne other.symm, element]
  show (update stored.chunkt _ _ k).els = _
  by_cases same : k = (s.listt l).last
  · rw [same, update_self]
    exact others _ other
  · rw [update_of_ne same, others k other']

theorem Holds.append_behind (holds : Holds s contents cells frees) (live : contents l = some xs)
    (full : ¬ (s.listt l).chunkIdx + 1 < chunkLen) (x : Nat) :
    ∃ s' cells', s.appendElement l x = .ok s' ∧ Holds s' (update contents l (some (xs ++ [x]))) cells' frees ∧
      cells (some l) <+: cells' (some l) ∧ ∀ l', l' ≠ l → cells' (some l') = cells (some l') := by
  obtain ⟨low, high, record⟩ := holds.live l xs live
  obtain ⟨quotient, remainder, shape⟩ := record.place.2 full
  obtain ⟨middle, c, rest, free, lists, listLast, freeChain, chunkt, lowC, highC, fresh, freeHead, threads⟩ :=
    getFreeChunk_spec holds.threads holds.freeHead
  have threads' : Threads (update (links middle) c none) (update cells none rest) := threads
  have unlinked : update (links middle) c none c = none := update_self _ _ _
  have mine : update cells none rest (some l) = cells (some l) := update_of_ne (Option.some_ne_none l) _ _
  have lastOf : (s.listt l).nbr ≠ 0 → ∃ m, cells (some l) = m ++ [(s.listt l).last] := fun some' =>
    shape fun none => some' (by rw [record.nbr, none]; rfl)
  have known : (s.listt l).nbr ≠ 0 → 1 ≤ (s.listt l).last ∧ (s.listt l).last ≤ middle.chunkLast ∧ (s.listt l).last ≠ c := by
    intro some'
    obtain ⟨m, isKs⟩ := lastOf some'
    have inside : (s.listt l).last ∈ cells (some l) := by rw [isKs]; simp
    have other : (s.listt l).last ≠ c := fun same => fresh l (same ▸ inside)
    have linked := threads'.linked_iff.mpr ⟨some l, mine.symm ▸ inside⟩
    rw [update_of_ne other] at linked
    by_contra outside
    exact linked (if_neg fun bounds => outside ⟨bounds.1, bounds.2, other⟩)
  obtain ⟨s', run, ⟨last, freeChain'⟩, chunkLast, freeList, listt, element, others, link⟩ :=
    appendElement_behind low high full free lists listLast lowC highC known x
  have descriptor : s'.listt l =
      ⟨if (s.listt l).nbr = 0 then c else (s.listt l).first, c, 0, (s.listt l).nbr + 1⟩ := by
    rw [listt, update_self]
  have family : Threads (links s') (update (update cells none rest) (some l) (cells (some l) ++ [c])) := by
    rw [link]
    by_cases empty : (s.listt l).nbr = 0
    · rw [if_pos empty]
      have none' : cells (some l) = [] := by
        have start := record.nbr
        rw [empty] at start
        rcases record.shape with ⟨isKs, -⟩ | ⟨m, -, -, count⟩
        · exact isKs
        · rw [← start] at count
          omega
      have pushed := (threads'.push unlinked (some l)).canonical
      rw [Function.update_idem, mine, none'] at pushed
      rw [none']
      exact pushed
    · rw [if_neg empty]
      obtain ⟨m, isKs⟩ := lastOf empty
      have appended := (threads'.append unlinked (mine.trans isKs)).canonical
      rw [Function.update_idem, ← isKs] at appended
      exact appended
  have newChunk : update (update cells none rest) (some l) (cells (some l) ++ [c]) (some l) =
      cells (some l) ++ [c] := update_self _ _ _
  have kept : ∀ l', l' ≠ l → update (update cells none rest) (some l) (cells (some l) ++ [c]) (some l') =
      cells (some l') := fun l' other => by
    rw [update_of_ne fun same => other (Option.some.inj same), update_of_ne (Option.some_ne_none l')]
  refine ⟨s', _, run, holds.modify live (fun l' other => by rw [listt, update_of_ne other]) (last.trans listLast)
    (freeChain'.trans freeChain) family ?_ kept (fun l' other k inside => ?_) ?_, ?_, kept⟩
  · rw [freeList, update_of_ne (Option.some_ne_none l).symm, update_self]
    exact freeHead
  · rw [others k fun same => fresh l' (same ▸ inside), chunkt]
  · rw [newChunk]
    refine record.snoc (c := c) (List.prefix_append _ _) (fun p k old isK => ?_) ⟨?_, ?_⟩ ?_ ?_ ⟨cells (some l), ?_, quotient, ?_⟩
    · rw [others k fun same => fresh l (same ▸ List.mem_of_getElem? isK), chunkt]
    · rw [quotient]
      simp
    · rw [remainder, element]
    · rw [descriptor]
      by_cases empty : (s.listt l).nbr = 0
      · have none' : cells (some l) = [] := by
          rcases record.shape with ⟨isKs, -⟩ | ⟨m, -, -, count⟩
          · exact isKs
          · rw [← record.nbr, empty] at count
            omega
        rw [none']
        dsimp only
        rw [if_pos empty, ref_some (by omega)]
        rfl
      · obtain ⟨m, isKs⟩ := lastOf empty
        dsimp only
        rw [if_neg empty, record.first, isKs]
        cases m <;> rfl
    · rw [descriptor]
      exact congrArg (· + 1) record.nbr
    · rw [descriptor]
    · rw [descriptor]
      exact remainder
  · rw [newChunk]
    exact List.prefix_append _ _

theorem Holds.append (holds : Holds s contents cells frees) (live : contents l = some xs) (x : Nat) :
    ∃ s' cells', s.appendElement l x = .ok s' ∧ Holds s' (update contents l (some (xs ++ [x]))) cells' frees ∧
      cells (some l) <+: cells' (some l) ∧ ∀ l', l' ≠ l → cells' (some l') = cells (some l') := by
  by_cases room : (s.listt l).chunkIdx + 1 < chunkLen
  · obtain ⟨s', run, holds'⟩ := holds.append_room live room x
    exact ⟨s', cells, run, holds', List.prefix_refl _, fun _ _ => rfl⟩
  · exact holds.append_behind live room x

theorem chain_update (low : 2 ≤ l) (high : l ≤ s.listLast) (r : ListRecord) :
    chain { s with listt := update s.listt l r } = update (chain s) l (some (ref r.chunkIdx)) := by
  funext a
  by_cases same : a = l
  · subst same
    rw [update_self]
    show (if 2 ≤ a ∧ a ≤ s.listLast then some (ref (update s.listt a r a).chunkIdx) else none) = _
    rw [if_pos ⟨low, high⟩, update_self]
  · rw [update_of_ne same]
    show (if 2 ≤ a ∧ a ≤ s.listLast then some (ref (update s.listt l r a).chunkIdx) else none) = _
    rw [update_of_ne same]
    rfl

theorem newList_spec (holds : Holds s contents cells frees) :
    ∃ s' l rest, s.newList = .ok (s', l) ∧ s'.listt = s.listt ∧ s'.chunkt = s.chunkt ∧ s'.chunkLast = s.chunkLast ∧
      s'.chunkFreeList = s.chunkFreeList ∧ s.listLast ≤ s'.listLast ∧ 2 ≤ l ∧ l ≤ s'.listLast ∧ contents l = none ∧ l ∉ rest ∧
      Segment (chain s') (ref s'.listFreeChain) rest none ∧
      ∀ a, a ∈ rest ↔ a ≠ l ∧ 2 ≤ a ∧ a ≤ s'.listLast ∧ contents a = none := by
  by_cases empty : s.listFreeChain = 0
  · have path := holds.path
    rw [empty] at path
    have none' : frees = [] := by
      cases isFrees : frees with
      | nil => rfl
      | cons a rest =>
        rw [isFrees] at path
        exact absurd path.1 nofun
    have least := holds.least
    have dead : contents (s.listLast + 1) = none := by
      cases isLive : contents (s.listLast + 1) with
      | none => rfl
      | some xs =>
        have := (holds.live _ xs isLive).2.1
        omega
    refine ⟨{ s with listLast := s.listLast + 1 }, s.listLast + 1, [], if_pos empty, rfl, rfl, rfl, rfl, Nat.le_succ _, by omega,
      le_rfl, dead, by simp, by rw [empty]; rfl, fun a => ⟨nofun, fun inside => ?_⟩⟩
    obtain ⟨other, low, high, dead'⟩ := inside
    have high' : a ≤ s.listLast := by
      have : a ≤ s.listLast + 1 := high
      omega
    exact none' ▸ (holds.free a).mpr ⟨low, high', dead'⟩
  have path := holds.path
  rw [ref_some empty] at path
  obtain ⟨rest, isFrees⟩ : ∃ rest, frees = s.listFreeChain :: rest := by
    cases isFrees : frees with
    | nil =>
      rw [isFrees] at path
      cases path
    | cons a rest =>
      rw [isFrees] at path
      exact ⟨rest, by rw [Option.some.inj path.1]⟩
  rw [isFrees] at path
  have distinct := (List.nodup_cons.mp path.nodup).1
  obtain ⟨low, high, dead⟩ := (holds.free s.listFreeChain).mp (by rw [isFrees]; exact List.mem_cons_self)
  obtain ⟨-, r, link, path'⟩ := path
  have isR : ref (s.listt s.listFreeChain).chunkIdx = r := by
    rw [chain, if_pos ⟨low, high⟩] at link
    exact Option.some.inj link
  refine ⟨{ s with listFreeChain := (s.listt s.listFreeChain).chunkIdx }, s.listFreeChain, rest, ?_, rfl, rfl, rfl, rfl, le_rfl, low,
    high, dead, distinct, isR.symm ▸ path', fun a => ?_⟩
  · unfold Lists.newList
    rw [if_neg empty]
    dsimp only
    rw [list_ok low high]
    rfl
  · have isFree := holds.free a
    rw [isFrees, List.mem_cons] at isFree
    constructor
    · intro inside
      exact ⟨fun same => distinct (same ▸ inside), isFree.mp (Or.inr inside)⟩
    · rintro ⟨other, bounds⟩
      exact (isFree.mpr bounds).resolve_left other

theorem Holds.create (holds : Holds s contents cells frees) :
    ∃ s' l rest, s.createList = .ok (s', l) ∧ contents l = none ∧
      Holds s' (update contents l (some [])) cells rest := by
  obtain ⟨middle, l, rest, run, listt, chunkt, chunkLast, freeList, more, low, high, dead, fresh, path, free⟩ := newList_spec holds
  have sameLinks : links middle = links s := by
    unfold links
    rw [chunkt, chunkLast]
  have isEmpty := holds.dead l dead
  refine ⟨{ middle with listt := update middle.listt l ⟨0, 0, chunkLen, 0⟩ }, l, rest, ?_, dead, ?_, ?_, ?_, ?_, ?_, ?_, ?_⟩
  · unfold Lists.createList
    rw [run]
    dsimp only [bind, Except.bind]
    rw [setList_ok low high]
  · exact sameLinks.symm ▸ holds.threads
  · exact freeList.symm ▸ holds.freeHead
  · rw [chain_update low high]
    exact (Segment.update fresh _).mpr path
  · intro a
    rw [free]
    by_cases same : a = l
    · subst same
      rw [update_self]
      simp
    · rw [update_of_ne same]
      exact ⟨fun inside => inside.2, fun inside => ⟨same, inside⟩⟩
  · exact holds.least.trans more
  · intro a xs isLive
    by_cases same : a = l
    · subst same
      rw [update_self] at isLive
      cases isLive
      have descriptor : update middle.listt a ⟨0, 0, chunkLen, 0⟩ a = ⟨0, 0, chunkLen, 0⟩ := update_self _ _ _
      rw [isEmpty]
      refine ⟨low, high, ⟨?_, ?_, Or.inl ⟨rfl, rfl, ?_⟩, fun p x isX => by simp at isX⟩⟩
      · exact congrArg (ref ∘ ListRecord.first) descriptor
      · exact congrArg ListRecord.nbr descriptor
      · exact congrArg ListRecord.chunkIdx descriptor
    · rw [update_of_ne same] at isLive
      obtain ⟨lowA, highA, record⟩ := holds.live a xs isLive
      refine ⟨lowA, highA.trans more, record.congr ?_ fun k _ => ?_⟩
      · show update middle.listt l _ a = _
        rw [update_of_ne same, listt]
      · show (middle.chunkt k).els = _
        rw [chunkt]
  · intro a isDead
    by_cases same : a = l
    · rw [same, isEmpty]
    · rw [update_of_ne same] at isDead
      exact holds.dead a isDead

theorem freeChunks_spec (fuel : Nat) : ∀ {s : Lists} {cells : Option Nat → List Nat}, Threads (links s) cells →
    ref s.chunkFreeList = (cells none).head? → ref c = (cells (some l)).head? → (cells (some l)).length < fuel →
    ∃ s' cells', Lists.freeChunks fuel c s = .ok s' ∧ s.SameHeads s' ∧ s'.listt = s.listt ∧ s'.chunkLast = s.chunkLast ∧
      (∀ k, (s'.chunkt k).els = (s.chunkt k).els) ∧ Threads (links s') cells' ∧ ref s'.chunkFreeList = (cells' none).head? ∧
      cells' (some l) = [] ∧ ∀ l', l' ≠ l → cells' (some l') = cells (some l') := by
  induction fuel generalizing c with
  | zero => exact fun _ _ _ enough => absurd enough (Nat.not_lt_zero _)
  | succ fuel ih =>
    intro s cells threads freeHead start enough
    rw [Lists.freeChunks]
    cases isKs : cells (some l) with
    | nil =>
      rw [isKs] at start
      rw [if_pos (ref_eq_none.mp start)]
      exact ⟨s, cells, rfl, ⟨rfl, rfl⟩, rfl, rfl, fun _ => rfl, threads, freeHead, isKs, fun _ _ => rfl⟩
    | cons k ks =>
      rw [isKs] at start enough
      obtain ⟨rfl, positive⟩ := ref_eq_some.mp start
      obtain ⟨low, high⟩ := threads.bounds (by rw [isKs]; exact List.mem_cons_self)
      obtain ⟨r, link, popped⟩ := threads.pop isKs
      have isNext : ref (s.chunkt c).next = r := by
        rw [links, if_pos ⟨low, high⟩] at link
        exact Option.some.inj link
      have unlinked : update (links s) c none c = none := update_self _ _ _
      have pushed := popped.canonical.push unlinked none
      have heads := popped.head_eq (some l)
      rw [update_self, update_self] at heads
      -- The list without its first chunk, that is the first free one.
      obtain ⟨middle, isMiddle⟩ : ∃ middle : Lists, middle =
        { s with chunkt := update s.chunkt c { s.chunkt c with next := s.chunkFreeList }, chunkFreeList := c } := ⟨_, rfl⟩
      have step : s.freeChunk c = .ok middle := by
        unfold Lists.freeChunk
        rw [chunk_ok low high]
        dsimp only [bind, Except.bind]
        rw [setChunk_ok low high, isMiddle]
      have newLinks : links middle = update (links s) c (some (ref s.chunkFreeList)) := by
        rw [isMiddle]
        exact links_update low high _
      have listt : middle.listt = s.listt := by rw [isMiddle]
      have chunkLast : middle.chunkLast = s.chunkLast := by rw [isMiddle]
      have same : s.SameHeads middle := by rw [isMiddle]; exact ⟨rfl, rfl⟩
      have isFree : middle.chunkFreeList = c := by rw [isMiddle]
      have els : ∀ k, (middle.chunkt k).els = (s.chunkt k).els := by
        intro k
        rw [isMiddle]
        by_cases here : k = c
        · rw [here]
          dsimp only
          rw [update_self]
        · dsimp only
          rw [update_of_ne here]
      clear isMiddle
      obtain ⟨middleCells, isCells⟩ : ∃ middleCells, middleCells =
        update (update cells (some l) ks) none (c :: cells none) := ⟨_, rfl⟩
      have atFree : middleCells none = c :: cells none := by rw [isCells, update_self]
      have atList : middleCells (some l) = ks := by
        rw [isCells, update_of_ne (Option.some_ne_none l), update_self]
      have atOther : ∀ l', l' ≠ l → middleCells (some l') = cells (some l') := fun l' other => by
        rw [isCells, update_of_ne (Option.some_ne_none l'), update_of_ne fun same => other (Option.some.inj same)]
      have family : Threads (links middle) middleCells := by
        rw [newLinks, freeHead, isCells]
        have unchanged : update cells (some l) ks none = cells none := update_of_ne (Option.some_ne_none l).symm _ _
        rw [unchanged, Function.update_idem] at pushed
        exact pushed.canonical
      obtain ⟨s', cells', run, ⟨last, freeChain⟩, listt', chunkLast', els', threads', freeHead', isEmpty, kept⟩ :=
        @ih (s.chunkt c).next middle middleCells family (by rw [isFree, ref_some positive, atFree]; rfl)
          (by rw [atList, isNext, heads]) (by rw [atList]; exact Nat.lt_of_succ_lt_succ enough)
      refine ⟨s', cells', ?_, ⟨last.trans same.1, freeChain.trans same.2⟩, listt'.trans listt, chunkLast'.trans chunkLast,
        fun k => (els' k).trans (els k), threads', freeHead', isEmpty, fun l' other => (kept l' other).trans (atOther l' other)⟩
      rw [if_neg positive, chunk_ok low high]
      dsimp only [bind, Except.bind]
      rw [step]
      exact run

theorem Threads.length_le {i : Option Nat} (threads : Threads (links s) cells) : (cells i).length ≤ s.chunkLast := by
  have sub : (cells i).Subperm (List.range' 1 s.chunkLast) := List.subperm_of_subset (threads.nodup i) fun a inside => by
    have bounds := threads.bounds inside
    rw [List.mem_range'_1]
    omega
  simpa using sub.length_le

theorem Holds.destroy (holds : Holds s contents cells frees) (live : contents l = some xs) :
    ∃ s' cells', s.destroyList l = .ok s' ∧ Holds s' (update contents l none) cells' (l :: frees) ∧
      ∀ l', l' ≠ l → cells' (some l') = cells (some l') := by
  obtain ⟨low, high, record⟩ := holds.live l xs live
  obtain ⟨middle, cells', run, ⟨last, freeChain⟩, listt, chunkLast, els, threads, freeHead, isEmpty, kept⟩ :=
    freeChunks_spec (c := (s.listt l).first) (s.chunkLast + 1) holds.threads holds.freeHead record.first
      (Nat.lt_succ_of_le holds.threads.length_le)
  have high' : l ≤ middle.listLast := last ▸ high
  have positive : l ≠ 0 := by omega
  have fresh : l ∉ frees := fun inside => absurd (live.symm.trans ((holds.free l).mp inside).2.2) nofun
  have sameChain : chain middle = chain s := by
    unfold chain
    rw [last, listt]
  have descriptor := chain_update low high' { middle.listt l with chunkIdx := middle.listFreeChain }
  refine ⟨{ middle with
    listt := update middle.listt l { middle.listt l with chunkIdx := middle.listFreeChain }
    listFreeChain := l }, cells', ?_, ⟨threads, freeHead, ?_, ?_, ?_, ?_, ?_⟩, kept⟩
  · unfold Lists.destroyList
    rw [if_neg positive, list_ok low high]
    dsimp only [bind, Except.bind]
    rw [run]
    dsimp only
    rw [list_ok low high']
    dsimp only
    rw [setList_ok low high']
  · refine ⟨ref_some positive, ref middle.listFreeChain, ?_, ?_⟩
    · exact (congrFun descriptor l).trans (update_self _ _ _)
    · show Segment (chain { middle with listt := update middle.listt l _ }) _ _ _
      rw [descriptor, Segment.update fresh, sameChain, freeChain]
      exact holds.path
  · intro a
    show a ∈ l :: frees ↔ 2 ≤ a ∧ a ≤ middle.listLast ∧ _
    rw [List.mem_cons, holds.free, last]
    by_cases same : a = l
    · subst same
      rw [update_self]
      exact ⟨fun _ => ⟨low, high, rfl⟩, fun _ => Or.inl rfl⟩
    · rw [update_of_ne same]
      exact ⟨fun inside => inside.resolve_left same, Or.inr⟩
  · exact last ▸ holds.least
  · intro a ys isLive
    by_cases same : a = l
    · rw [same, update_self] at isLive
      cases isLive
    rw [update_of_ne same] at isLive
    obtain ⟨lowA, highA, record'⟩ := holds.live a ys isLive
    refine ⟨lowA, last ▸ highA, kept a same ▸ record'.congr ?_ fun k _ => els k⟩
    show update middle.listt l _ a = _
    rw [update_of_ne same, listt]
  · intro a isDead
    by_cases same : a = l
    · rw [same, isEmpty]
    · rw [update_of_ne same] at isDead
      rw [kept a same, holds.dead a isDead]

/-- An iterator has returned the first elements that the list had when it was made. -/
def Cursor.Valid (contents : Nat → Option (List Nat)) (cells : Option Nat → List Nat) (cursor : Cursor) : Prop :=
  ∃ xs p, contents cursor.list = some xs ∧ cursor.start <+: xs ∧ cursor.seen = cursor.start.take p ∧
    IsAt (cells (some cursor.list)) cursor.start.length cursor.it p

/-- The tables hold the live lists, and the iterators are valid. -/
def ListClient.Valid (client : ListClient) : Prop :=
  ∃ cells frees, Holds client.lists client.contents cells frees ∧
    ∀ cursor ∈ client.cursors, cursor.Valid client.contents cells

/-- An iterator is still valid when its list and the chunks of that have only grown. -/
theorem Cursor.Valid.mono {contents' : Nat → Option (List Nat)} {cells' : Option Nat → List Nat} {cursor : Cursor}
    (valid : cursor.Valid contents cells)
    (grown : ∀ xs, contents cursor.list = some xs → ∃ xs', contents' cursor.list = some xs' ∧ xs <+: xs')
    (chunks : cells (some cursor.list) <+: cells' (some cursor.list)) : cursor.Valid contents' cells' := by
  obtain ⟨xs, p, isLive, start, seen, count, position⟩ := valid
  obtain ⟨xs', isLive', grows⟩ := grown xs isLive
  refine ⟨xs', p, isLive', start.trans grows, seen, count, fun more => ⟨?_, (position more).2⟩⟩
  obtain ⟨rest, isChunks⟩ := chunks
  have isChunk := (position more).1
  rw [← isChunks, List.getElem?_append_left (List.getElem?_eq_some_iff.mp isChunk).1]
  exact isChunk

theorem Cursor.Valid.exhausted {cursor : Cursor} (valid : cursor.Valid contents cells) :
    cursor.seen <+: cursor.start ∧ (cursor.it.isValid = false ↔ cursor.seen = cursor.start) := by
  obtain ⟨xs, p, -, -, seen, count, -⟩ := valid
  refine ⟨seen ▸ List.take_prefix p _, ?_⟩
  rw [seen, List.take_eq_self_iff, Bool.eq_false_iff, Ne, isValid_iff]
  omega

theorem Cursor.Valid.advance {cursor : Cursor} (valid : cursor.Valid contents cells) (holds : Holds s contents cells frees) :
    ∃ cursor', cursor.advance s = .ok cursor' ∧ cursor'.Valid contents cells := by
  unfold Cursor.advance
  by_cases more : cursor.it.isValid = true
  · obtain ⟨xs, p, isLive, start, seen, isAt⟩ := valid
    obtain ⟨-, -, record⟩ := holds.live _ xs isLive
    obtain ⟨x, it', isX, element, next', isAt'⟩ := advance_spec record (fun k inside => holds.threads.bounds inside)
      (holds.threads.path _) start.length_le isAt (isValid_iff.mp more)
    have within : p < cursor.start.length := by
      have count := isAt.1
      have more' := isValid_iff.mp more
      omega
    have isStart : cursor.start[p]? = some x := by
      obtain ⟨rest, isXs⟩ := start
      rw [← isXs, List.getElem?_append_left within] at isX
      exact isX
    rw [if_pos more, element]
    dsimp only [bind, Except.bind]
    rw [next']
    refine ⟨_, rfl, xs, p + 1, isLive, start, ?_, isAt'⟩
    show cursor.seen ++ [x] = _
    rw [seen, List.take_add_one, isStart]
    rfl
  · rw [if_neg more]
    exact ⟨cursor, rfl, valid⟩

theorem ListClient.Valid.step {client : ListClient} (valid : client.Valid) (call : ListCall)
    (enabled : call.enabled client = true) : ∃ client', client.step call = .ok client' ∧ client'.Valid := by
  obtain ⟨cells, frees, holds, cursors⟩ := valid
  have isLive : ∀ l, (client.contents l).isSome = true → ∃ xs, client.contents l = some xs := fun l => Option.isSome_iff_exists.mp
  cases call with
  | create =>
    obtain ⟨s', l, rest, run, dead, holds'⟩ := holds.create
    unfold ListClient.step
    dsimp only
    rw [run]
    refine ⟨_, rfl, cells, rest, holds', fun cursor inside => (cursors cursor inside).mono (fun xs isXs => ⟨xs, ?_, List.prefix_refl _⟩)
      (List.prefix_refl _)⟩
    have other : cursor.list ≠ l := fun same => by
      rw [same, dead] at isXs
      cases isXs
    exact (update_of_ne other _ _).trans isXs
  | append l x =>
    obtain ⟨xs, live⟩ := isLive l enabled
    obtain ⟨s', cells', run, holds', mine, kept⟩ := holds.append live x
    unfold ListClient.step
    dsimp only
    rw [run, live]
    refine ⟨_, rfl, cells', frees, holds', fun cursor inside => (cursors cursor inside).mono (fun ys isYs => ?_) ?_⟩
    · by_cases same : cursor.list = l
      · rw [same, live] at isYs
        obtain rfl := Option.some.inj isYs
        rw [same]
        exact ⟨xs ++ [x], update_self _ _ _, List.prefix_append _ _⟩
      · exact ⟨ys, (update_of_ne same _ _).trans isYs, List.prefix_refl _⟩
    · by_cases same : cursor.list = l
      · rw [same]
        exact mine
      · rw [kept _ same]
  | destroy l =>
    obtain ⟨xs, live⟩ := isLive l enabled
    obtain ⟨s', cells', run, holds', kept⟩ := holds.destroy live
    unfold ListClient.step
    dsimp only
    rw [run]
    refine ⟨_, rfl, cells', l :: frees, holds', fun cursor inside => ?_⟩
    have remains := List.mem_filter.mp inside
    have other : cursor.list ≠ l := of_decide_eq_true remains.2
    refine (cursors cursor remains.1).mono (fun ys isYs => ⟨ys, (update_of_ne other _ _).trans isYs, List.prefix_refl _⟩) ?_
    rw [kept _ other]
  | iterate l =>
    obtain ⟨xs, live⟩ := isLive l enabled
    obtain ⟨low, high, record⟩ := holds.live l xs live
    obtain ⟨it, run, isAt⟩ := iterate_spec low high record
    unfold ListClient.step
    dsimp only
    rw [run, live]
    refine ⟨_, rfl, cells, frees, holds, fun cursor inside => ?_⟩
    rcases List.mem_cons.mp inside with rfl | inside
    · exact ⟨xs, 0, live, List.prefix_refl _, rfl, isAt⟩
    · exact cursors cursor inside
  | next n =>
    unfold ListClient.step
    dsimp only
    cases isCursor : client.cursors[n]? with
    | none => exact ⟨client, rfl, cells, frees, holds, cursors⟩
    | some cursor =>
      obtain ⟨cursor', run, valid'⟩ := (cursors cursor (List.mem_of_getElem? isCursor)).advance holds
      dsimp only
      rw [run]
      refine ⟨_, rfl, cells, frees, holds, fun other inside => ?_⟩
      rcases List.mem_or_eq_of_mem_set inside with inside | rfl
      · exact cursors other inside
      · exact valid'

theorem ListClient.init_valid : ListClient.init.Valid := by
  refine ⟨fun _ => [], [], ⟨⟨fun _ => rfl, fun _ _ _ _ inside => absurd inside List.not_mem_nil, fun a linked => ?_⟩, rfl, rfl, fun l => ?_, le_rfl,
    fun l xs isLive => absurd isLive nofun, fun _ _ => rfl⟩, fun cursor inside => absurd inside List.not_mem_nil⟩
  · refine absurd (if_neg fun bounds => ?_) linked
    have : 1 ≤ a ∧ a ≤ 0 := bounds
    omega
  · refine ⟨nofun, fun bounds => ?_⟩
    have : 2 ≤ l ∧ l ≤ 1 ∧ _ := bounds
    omega

theorem Holds.enumerate (holds : Holds s contents cells frees) (live : contents l = some xs) :
    s.getNbrElements l = .ok xs.length ∧ s.enumerate l = .ok xs := by
  obtain ⟨low, high, record⟩ := holds.live l xs live
  obtain ⟨it, run, isAt⟩ := iterate_spec low high record
  have count : s.getNbrElements l = .ok xs.length := by
    unfold Lists.getNbrElements
    rw [list_ok low high]
    exact congrArg _ record.nbr
  have count' := isAt.1
  refine ⟨count, ?_⟩
  unfold Lists.enumerate
  rw [count]
  dsimp only [bind, Except.bind]
  rw [run]
  exact visit_spec record (fun k inside => holds.threads.bounds inside) (holds.threads.path _) _ it 0 (by omega) isAt

end Ghdl.Tables
