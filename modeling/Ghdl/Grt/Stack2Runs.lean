import Ghdl.Grt.Stack2

/-!
# Runs of the secondary stack

The chunks of the list cover the indexes from one on without a gap, and every live allocation has its own indexes below
Top, in one chunk. So its bytes are its own, and a mark has the allocations before it below its index.
-/

namespace Ghdl.Secondary

open Fallible Linked Function

variable {target : Target} {heap heap' : Nat → Option Chunk} {s s' : Stack2} {c d : Chunk} {i j m k top top' last : Nat}
  {ks l back : List Nat} {live saved : List Allocation} {marks : List (Nat × List Allocation)}

/-- The links of the chunks. -/
def links (heap : Nat → Option Chunk) : Nat → Option (Option Nat) := fun k => (heap k).map Chunk.next

/-- The chunks cover the indexes from I to J - 1, in order; their sizes are aligned. -/
def Consecutive (target : Target) (heap : Nat → Option Chunk) : Nat → List Nat → Nat → Prop
  | i, [], j => i = j
  | i, k :: ks, j => ∃ c, heap k = some c ∧ c.first = i ∧ i ≤ c.last ∧ target.maxAlign ∣ c.size ∧
      Consecutive target heap (c.last + 1) ks j

/-- The chunk is still there, with the same indexes and the same memory. -/
def Kept (heap heap' : Nat → Option Chunk) (k : Nat) : Prop :=
  ∀ c, heap k = some c → ∃ c', heap' k = some c' ∧ c'.first = c.first ∧ c'.last = c.last ∧ c'.base = c.base

theorem Consecutive.le (covers : Consecutive target heap i ks j) : i ≤ j := by
  induction ks generalizing i with
  | nil => exact Nat.le_of_eq covers
  | cons k ks ih =>
    obtain ⟨c, -, -, nonempty, -, rest⟩ := covers
    have := ih rest
    omega

theorem Consecutive.append_iff : Consecutive target heap i (ks ++ l) j ↔
    ∃ m, Consecutive target heap i ks m ∧ Consecutive target heap m l j := by
  induction ks generalizing i with
  | nil => simp [Consecutive]
  | cons k ks ih =>
    simp only [List.cons_append, Consecutive, ih]
    constructor
    · rintro ⟨c, isChunk, first, nonempty, aligned, m, front, rest⟩
      exact ⟨m, ⟨c, isChunk, first, nonempty, aligned, front⟩, rest⟩
    · rintro ⟨m, ⟨c, isChunk, first, nonempty, aligned, front⟩, rest⟩
      exact ⟨c, isChunk, first, nonempty, aligned, m, front, rest⟩

theorem Consecutive.kept (covers : Consecutive target heap i ks j) (kept : ∀ k ∈ ks, Kept heap heap' k) :
    Consecutive target heap' i ks j := by
  induction ks generalizing i with
  | nil => exact covers
  | cons k ks ih =>
    obtain ⟨c, isChunk, first, nonempty, aligned, rest⟩ := covers
    obtain ⟨c', isChunk', first', last', -⟩ := kept k List.mem_cons_self c isChunk
    refine ⟨c', isChunk', by rw [first', first], by rw [last']; exact nonempty, ?_, ?_⟩
    · rw [Chunk.size, first', last']
      exact aligned
    · rw [last']
      exact ih rest fun k inside => kept k (List.mem_cons_of_mem _ inside)

theorem Consecutive.bounds (covers : Consecutive target heap i ks j) (inside : k ∈ ks) (isChunk : heap k = some c) :
    i ≤ c.first ∧ c.first ≤ c.last ∧ c.last < j := by
  induction ks generalizing i with
  | nil => exact absurd inside List.not_mem_nil
  | cons k' ks ih =>
    obtain ⟨c', isChunk', first, nonempty, -, rest⟩ := covers
    rcases List.mem_cons.mp inside with rfl | inside
    · obtain rfl := Option.some.inj (isChunk'.symm.trans isChunk)
      have := rest.le
      omega
    · have := ih rest inside
      omega

/-- An index is that of aligned memory. -/
def Target.Aligned (target : Target) (i : Nat) : Prop := 1 ≤ i ∧ target.maxAlign ∣ i - 1

/-- The allocations have their own indexes below Top, each in one chunk, the last one above the others. -/
inductive Stacked (target : Target) (heap : Nat → Option Chunk) : Nat → List Allocation → Prop
  | nil (top : Nat) : Stacked target heap top []
  | cons {top i : Nat} {k : Nat} {c : Chunk} {live : List Allocation} (size : Nat)
      (below : Stacked target heap i live) (isChunk : heap k = some c) (first : c.first ≤ i)
      (fits : i + target.alignedSize size ≤ c.last + 1) (within : i + target.alignedSize size ≤ top)
      (offset : target.maxAlign ∣ i - c.first) :
      Stacked target heap top (⟨c.base + (i - c.first), size⟩ :: live)

/-- The allocations at each mark are below it, and are still live at the next one. -/
def Nested (target : Target) (heap : Nat → Option Chunk) :
    Nat → List Allocation → List (Nat × List Allocation) → Prop
  | top, live, [] => target.Aligned top ∧ Stacked target heap top live
  | top, live, (mark, saved) :: marks => target.Aligned top ∧ Stacked target heap top live ∧ mark ≤ top ∧ saved <:+ live ∧
      Nested target heap mark saved marks

section

variable (stacked : Stacked target heap top live)
include stacked

theorem Stacked.mono (le : top ≤ top') : Stacked target heap top' live := by
  cases stacked with
  | nil => exact .nil _
  | cons size below isChunk first fits within offset => exact .cons size below isChunk first fits (within.trans le) offset

theorem Stacked.kept
    (kept : ∀ k c, heap k = some c → c.first ≤ top → Kept heap heap' k) : Stacked target heap' top live := by
  induction stacked with
  | nil => exact .nil _
  | @cons top i k c live size below isChunk first fits within offset ih =>
    have le : i ≤ top := (Nat.le_add_right _ _).trans within
    obtain ⟨c', isChunk', first', last', base'⟩ := kept k c isChunk (first.trans le) c isChunk
    have same := Stacked.cons (c := c') size (ih fun k c isChunk first => kept k c isChunk (first.trans le)) isChunk'
      (by rw [first']; exact first) (by rw [last']; exact fits) within (by rw [first']; exact offset)
    rwa [base', first'] at same

theorem Stacked.located {a : Allocation} (inside : a ∈ live) :
    ∃ k c i, heap k = some c ∧ c.first ≤ i ∧ i + target.alignedSize a.size ≤ c.last + 1 ∧
      i + target.alignedSize a.size ≤ top ∧ target.maxAlign ∣ i - c.first ∧ a.address = c.base + (i - c.first) := by
  induction stacked with
  | nil => exact absurd inside List.not_mem_nil
  | @cons top i k c live size below isChunk first fits within offset ih =>
    rcases List.mem_cons.mp inside with rfl | inside
    · exact ⟨k, c, i, isChunk, first, fits, within, offset, rfl⟩
    · obtain ⟨k', c', i', isChunk', first', fits', within', offset', address⟩ := ih inside
      exact ⟨k', c', i', isChunk', first', fits', by omega, offset', address⟩

end

section

variable (nested : Nested target heap top live marks)
include nested

theorem Nested.stacked : Stacked target heap top live := by
  cases marks with
  | nil => exact nested.2
  | cons mark marks => exact nested.2.1

theorem Nested.aligned : target.Aligned top := by
  cases marks with
  | nil | cons mark marks => exact nested.1

theorem Nested.kept
    (kept : ∀ k c, heap k = some c → c.first ≤ top → Kept heap heap' k) : Nested target heap' top live marks := by
  induction marks generalizing top live with
  | nil => exact ⟨nested.1, nested.2.kept kept⟩
  | cons mark marks ih =>
    obtain ⟨aligned, stacked, below, suffix', rest⟩ := nested
    exact ⟨aligned, stacked.kept kept, below, suffix', ih rest fun k c isChunk first => kept k c isChunk (first.trans below)⟩

theorem Nested.allocate (above : top ≤ i) {size : Nat} (isChunk : heap k = some c)
    (first : c.first ≤ i) (fits : i + target.alignedSize size ≤ c.last + 1) (within : i + target.alignedSize size ≤ top')
    (offset : target.maxAlign ∣ i - c.first) (aligned : target.Aligned top') :
    Nested target heap top' (⟨c.base + (i - c.first), size⟩ :: live) marks := by
  have stacked := Stacked.cons size (nested.stacked.mono above) isChunk first fits within offset
  have le : top ≤ top' := by omega
  cases marks with
  | nil => exact ⟨aligned, stacked⟩
  | cons mark marks =>
    obtain ⟨-, -, below, suffix', rest⟩ := nested
    exact ⟨aligned, stacked, below.trans le, suffix'.trans (List.suffix_cons _ _), rest⟩

theorem Nested.release {n : Nat} {mark : Nat} {rest : List (Nat × List Allocation)}
    (dropped : marks.drop n = (mark, saved) :: rest) :
    Nested target heap mark saved rest ∧ mark ≤ top ∧ saved <:+ live := by
  induction n generalizing top live marks with
  | zero =>
    rw [List.drop_zero] at dropped
    subst dropped
    obtain ⟨-, -, below, suffix', rest⟩ := nested
    exact ⟨rest, below, suffix'⟩
  | succ n ih =>
    cases marks with
    | nil => simp at dropped
    | cons first marks =>
      obtain ⟨-, -, below, suffix', inner⟩ := nested
      obtain ⟨released, below', suffix''⟩ := ih inner dropped
      exact ⟨released, below'.trans below, suffix''.trans suffix'⟩

end

/-- The chunks in memory are those of the list, and their memory is aligned and apart. -/
structure Stack2.Valid (target : Target) (s : Stack2) (ks : List Nat) (stop : Nat) : Prop where
  path : Segment (links s.heap) (some s.firstChunk) ks none
  covers : Consecutive target s.heap 1 ks stop
  last : ks.getLast? = some s.lastChunk
  below : ∀ k ∈ ks, k < s.fresh
  known : ∀ k c, s.heap k = some c → k ∈ ks
  aligned : ∀ k c, s.heap k = some c → target.maxAlign ∣ c.base
  apart : ∀ k k' c c', s.heap k = some c → s.heap k' = some c' → k ≠ k' → c.Apart c'

theorem deref_ok (isChunk : s.heap k = some c) : s.deref k = .ok c := by
  unfold Stack2.deref
  rw [isChunk]

theorem links_eq (isChunk : heap k = some c) : links heap k = some c.next := by
  rw [links, isChunk]
  rfl

/-- The chunk of Top is found, unless Top is behind the last one. -/
theorem findChunk_spec {fuel : Nat} (path : Segment (links s.heap) (some k) ks none)
    (covers : Consecutive target s.heap i ks j) (low : i ≤ s.top) (high : s.top ≤ j) (enough : ks.length ≤ fuel) :
    (s.top = j ∧ s.findChunk fuel k = .ok none) ∨
      ∃ front k' c back, ks = front ++ k' :: back ∧ s.heap k' = some c ∧ c.first ≤ s.top ∧ s.top ≤ c.last ∧
        s.findChunk fuel k = .ok (some k') := by
  induction ks generalizing i k fuel with
  | nil => exact absurd path (by simp)
  | cons k' ks ih =>
    obtain ⟨start, r, link, rest⟩ := path
    obtain rfl := Option.some.inj start
    obtain ⟨c, isChunk, first, nonempty, -, covers⟩ := covers
    obtain ⟨fuel, rfl⟩ := fuel_succ enough
    have step : s.findChunk (fuel + 1) k = if c.first ≤ s.top ∧ s.top ≤ c.last then .ok (some k) else
        c.next.elim (.ok none) fun next => s.findChunk fuel next := by
      conv_lhs => unfold Stack2.findChunk
      rw [deref_ok isChunk]
      dsimp only [bind, Except.bind]
      cases c.next <;> rfl
    rw [links_eq isChunk, Option.some.injEq] at link
    subst link
    rw [step]
    by_cases inside : c.first ≤ s.top ∧ s.top ≤ c.last
    · rw [if_pos inside]
      exact Or.inr ⟨[], k, c, ks, rfl, isChunk, inside.1, inside.2, rfl⟩
    have above : c.last + 1 ≤ s.top := by omega
    rw [if_neg inside]
    cases next : c.next with
    | none =>
      rw [next] at rest
      have empty : ks = [] := by
        cases ks with
        | nil => rfl
        | cons a ks => exact absurd rest.1 (by simp)
      subst empty
      have isStop : c.last + 1 = j := covers
      exact Or.inl ⟨by omega, rfl⟩
    | some next' =>
      rw [next] at rest
      rcases @ih (c.last + 1) next' fuel rest covers above (by rw [List.length_cons] at enough; omega) with found | found
      · exact Or.inl found
      · obtain ⟨front, k'', c', back, rfl, isChunk', low', high', run⟩ := found
        exact Or.inr ⟨k :: front, k'', c', back, rfl, isChunk', low', high', run⟩

theorem freeChunks_spec {fuel : Nat} (path : Segment (links s.heap) (some k) ks none) (enough : ks.length ≤ fuel) :
    Stack2.freeChunks fuel k s = .ok { s with heap := fun a => if a ∈ ks then none else s.heap a } := by
  induction ks generalizing k fuel s with
  | nil => exact absurd path (by simp)
  | cons k' ks ih =>
    have distinct := List.nodup_cons.mp path.nodup
    obtain ⟨start, r, link, rest⟩ := path
    obtain rfl := Option.some.inj start
    obtain ⟨fuel, rfl⟩ := fuel_succ enough
    obtain ⟨c, isChunk, next⟩ : ∃ c, s.heap k = some c ∧ c.next = r := Option.map_eq_some_iff.mp link
    have step : Stack2.freeChunks (fuel + 1) k s =
        c.next.elim (.ok { s with heap := update s.heap k none }) fun next =>
          Stack2.freeChunks fuel next { s with heap := update s.heap k none } := by
      conv_lhs => unfold Stack2.freeChunks
      rw [deref_ok isChunk]
      dsimp only [bind, Except.bind]
      cases c.next <;> rfl
    subst next
    rw [step]
    cases next : c.next with
    | none =>
      rw [next] at rest
      have empty : ks = [] := by
        cases ks with
        | nil => rfl
        | cons a ks => exact absurd rest.1 (by simp)
      subst empty
      refine congrArg Except.ok (congrArg (fun heap => { s with heap := heap }) (funext fun a => ?_))
      by_cases same : a = k
      · simp [same]
      · simp [same]
    | some next' =>
      rw [next] at rest
      have rest' : Segment (links (update s.heap k none)) (some next') ks none := by
        refine (Segment.congr fun a inside => ?_).mpr rest
        have different : a ≠ k := ne_of_mem_of_not_mem inside distinct.1
        rw [links, links, update_of_ne different]
      show Stack2.freeChunks fuel next' _ = _
      rw [ih (s := { s with heap := update s.heap k none }) rest' (by rw [List.length_cons] at enough; omega)]
      refine congrArg Except.ok (congrArg (fun heap => { s with heap := heap }) (funext fun a => ?_))
      by_cases same : a = k
      · simp [same]
      · simp [same]

theorem alignedSize_dvd (target : Target) (size : Nat) : target.maxAlign ∣ target.alignedSize size := Nat.dvd_mul_left _ _

theorem le_alignedSize (target : Target) (size : Nat) : size ≤ target.alignedSize size := by
  have positive := target.positive
  have above := Nat.lt_div_mul_add (a := size + target.maxAlign - 1) positive
  unfold Target.alignedSize
  omega

/-- The size of a new chunk. -/
def Target.chunkSize (target : Target) (size : Nat) : Nat := max (target.alignedSize size) minChunkSize

theorem chunkSize_dvd (target : Target) (size : Nat) : target.maxAlign ∣ target.chunkSize size := by
  unfold Target.chunkSize
  rcases max_choice (target.alignedSize size) minChunkSize with same | same
  · rw [same]
    exact alignedSize_dvd target size
  · rw [same]
    exact target.divides

theorem chunkSize_pos (target : Target) (size : Nat) : 0 < target.chunkSize size :=
  Nat.lt_of_lt_of_le (by decide) (le_max_right _ _)

/-- A list of chunks without the links behind the last one. -/
structure Stack2.Open (target : Target) (s : Stack2) (ks : List Nat) (stop : Nat) : Prop where
  path : ∃ q, Segment (links s.heap) (some s.firstChunk) (ks ++ [s.lastChunk]) q
  covers : Consecutive target s.heap 1 (ks ++ [s.lastChunk]) stop
  below : ∀ k ∈ ks ++ [s.lastChunk], k < s.fresh
  distinct : s.lastChunk ∉ ks
  known : ∀ k c, s.heap k = some c → k ∈ ks ++ [s.lastChunk]
  aligned : ∀ k c, s.heap k = some c → target.maxAlign ∣ c.base
  apart : ∀ k k' c c', s.heap k = some c → s.heap k' = some c' → k ≠ k' → c.Apart c'

theorem Stack2.Valid.last_split (valid : s.Valid target ks j) : ∃ l, ks = l ++ [s.lastChunk] := by
  obtain ⟨l, isLast⟩ := List.getLast?_eq_some_iff.mp valid.last
  exact ⟨l, isLast⟩

theorem Stack2.Valid.open (valid : s.Valid target (l ++ [s.lastChunk]) j) : s.Open target l j := by
  have distinct := valid.path.nodup
  refine ⟨⟨none, valid.path⟩, valid.covers, valid.below, fun inside => ?_, valid.known, valid.aligned, valid.apart⟩
  exact (List.nodup_append.mp distinct).2.2 _ inside _ (List.mem_singleton_self _) rfl

theorem newChunk_spec (isOpen : s.Open target l j) (mem size : Nat) :
    ∃ s', s.newChunk mem (target.alignedSize size) = .ok (s', mem) ∧ s'.fresh = s.fresh + 1 ∧
      s'.top = j + target.chunkSize size ∧ s'.heap s.fresh = some ⟨j, j + target.chunkSize size - 1, none, mem⟩ ∧
      (∀ k, k ≠ s.fresh → Kept s.heap s'.heap k) ∧ ((target.maxAlign ∣ mem ∧ ∀ k d, s'.heap k = some d → k ≠ s.fresh →
          Chunk.Apart ⟨j, j + target.chunkSize size - 1, none, mem⟩ d) →
        s'.Valid target (l ++ [s.lastChunk] ++ [s.fresh]) (j + target.chunkSize size)) := by
  have positive := chunkSize_pos target size
  obtain ⟨m, front, c, isLast, first, nonempty, aligned, stops⟩ := Consecutive.append_iff.mp isOpen.covers
  have isStop : c.last + 1 = j := stops
  have notFresh : s.lastChunk ≠ s.fresh := Nat.ne_of_lt (isOpen.below _ (List.mem_append_right _ (List.mem_singleton_self _)))
  let n : Chunk := ⟨j, j + target.chunkSize size - 1, none, mem⟩
  let heap' := update (update s.heap s.fresh (some n)) s.lastChunk (some { c with next := some s.fresh })
  have atFresh : heap' s.fresh = some n := by
    show update _ _ _ _ = _
    rw [update_of_ne notFresh.symm, update_self]
  have atLast : heap' s.lastChunk = some { c with next := some s.fresh } := update_self _ _ _
  have others : ∀ k, k ≠ s.fresh → k ≠ s.lastChunk → heap' k = s.heap k := by
    intro k notFresh' notLast
    show update _ _ _ _ = _
    rw [update_of_ne notLast, update_of_ne notFresh']
  have keeps : ∀ k, k ≠ s.fresh → Kept s.heap heap' k := by
    intro k notFresh' d isChunk
    by_cases same : k = s.lastChunk
    · subst same
      obtain rfl := Option.some.inj (isLast.symm.trans isChunk)
      exact ⟨_, atLast, rfl, rfl, rfl⟩
    · exact ⟨d, (others k notFresh' same).trans isChunk, rfl, rfl, rfl⟩
  -- And the other way: what is in memory was there, but for the new chunk.
  have back : ∀ k d, k ≠ s.fresh → heap' k = some d → ∃ d', s.heap k = some d' ∧ d'.first = d.first ∧ d'.last = d.last ∧
      d'.base = d.base := by
    intro k d notFresh' isChunk
    by_cases same : k = s.lastChunk
    · subst same
      obtain rfl := Option.some.inj (atLast.symm.trans isChunk)
      exact ⟨c, isLast, rfl, rfl, rfl⟩
    · exact ⟨d, (others k notFresh' same).symm.trans isChunk, rfl, rfl, rfl⟩
  refine ⟨⟨heap', s.fresh + 1, s.firstChunk, s.fresh, j + target.chunkSize size⟩, ?_, rfl, rfl, atFresh, keeps, fun supplied => ?_⟩
  · unfold Stack2.newChunk
    rw [deref_ok isLast]
    refine congrArg Except.ok (Prod.ext ?_ rfl)
    show Stack2.mk _ _ _ _ _ = Stack2.mk _ _ _ _ _
    have size' : max (target.alignedSize size) minChunkSize = target.chunkSize size := rfl
    simp only [isStop, size', heap', n]
    congr 1
    omega
  · have freshNotIn : s.fresh ∉ l ++ [s.lastChunk] := fun inside => absurd (isOpen.below _ inside) (Nat.lt_irrefl _)
    refine ⟨?_, ?_, ?_, ?_, ?_, ?_, ?_⟩
    · obtain ⟨q, path⟩ := isOpen.path
      have redirected := path.redirect isOpen.distinct (some s.fresh)
      refine Segment.append (r := some s.fresh) ((Segment.congr fun a inside => ?_).mp redirected)
        ⟨rfl, none, by rw [links_eq atFresh], rfl⟩
      by_cases same : a = s.lastChunk
      · subst same
        rw [update_self, links_eq atLast]
      · rw [update_of_ne same]
        show (s.heap a).map Chunk.next = (heap' a).map Chunk.next
        rw [others a (fun isFresh => freshNotIn (isFresh ▸ inside)) same]
    · refine Consecutive.append_iff.mpr ⟨j, isOpen.covers.kept fun k inside => keeps k fun same => freshNotIn (same ▸ inside),
        n, atFresh, rfl, ?_, ?_, ?_⟩
      · show j ≤ j + target.chunkSize size - 1
        omega
      · have size' : n.size = target.chunkSize size := by
          show j + target.chunkSize size - 1 + 1 - j = _
          omega
        rw [size']
        exact chunkSize_dvd target size
      · show j + target.chunkSize size - 1 + 1 = _
        omega
    · simp
    · intro k inside
      rcases List.mem_append.mp inside with inside | inside
      · exact Nat.lt_succ_of_lt (isOpen.below k inside)
      · rw [List.mem_singleton.mp inside]
        exact Nat.lt_succ_self _
    · intro k d isChunk
      by_cases same : k = s.fresh
      · exact List.mem_append_right _ (List.mem_singleton.mpr same)
      · obtain ⟨d', isChunk', -⟩ := back k d same isChunk
        exact List.mem_append_left _ (isOpen.known k d' isChunk')
    · intro k d isChunk
      by_cases same : k = s.fresh
      · subst same
        obtain rfl := Option.some.inj (atFresh.symm.trans isChunk)
        exact supplied.1
      · obtain ⟨d', isChunk', -, -, base⟩ := back k d same isChunk
        rw [← base]
        exact isOpen.aligned k d' isChunk'
    · intro k k' d d' isChunk isChunk' different
      by_cases same : k = s.fresh
      · subst same
        obtain rfl := Option.some.inj (atFresh.symm.trans isChunk)
        exact supplied.2 k' d' isChunk' different.symm
      by_cases same' : k' = s.fresh
      · subst same'
        obtain rfl := Option.some.inj (atFresh.symm.trans isChunk')
        exact (supplied.2 k d isChunk same).symm
      · obtain ⟨e, isE, first₁, last₁, base₁⟩ := back k d same isChunk
        obtain ⟨e', isE', first₂, last₂, base₂⟩ := back k' d' same' isChunk'
        have old := isOpen.apart k k' e e' isE isE' different
        rwa [Chunk.Apart, Chunk.size, Chunk.size, first₁, last₁, base₁, first₂, last₂, base₂] at old

/-- A client between two calls. -/
def Client.Valid (target : Target) (client : Client) : Prop :=
  ∃ ks stop, client.stack.Valid target ks stop ∧ client.stack.top ≤ stop ∧
    Nested target client.stack.heap client.stack.top client.live client.marks

theorem Consecutive.aligned (covers : Consecutive target heap i ks j) (start : target.Aligned i) : target.Aligned j := by
  induction ks generalizing i with
  | nil => exact (show i = j from covers) ▸ start
  | cons k ks ih =>
    obtain ⟨c, -, first, nonempty, aligned, rest⟩ := covers
    refine ih rest ⟨Nat.succ_pos _, ?_⟩
    have split : c.last + 1 - 1 = i - 1 + c.size := by
      have positive := start.1
      rw [Chunk.size, first]
      omega
    rw [split]
    exact Nat.dvd_add start.2 aligned

theorem aligned_one (target : Target) : target.Aligned 1 := ⟨Nat.le_refl 1, Nat.dvd_zero _⟩

theorem Target.Aligned.add (aligned : target.Aligned i) (size : Nat) : target.Aligned (i + target.alignedSize size) := by
  have positive := aligned.1
  refine ⟨by omega, ?_⟩
  have split : i + target.alignedSize size - 1 = i - 1 + target.alignedSize size := by omega
  rw [split]
  exact Nat.dvd_add aligned.2 (alignedSize_dvd target size)

theorem Target.Aligned.sub (aligned : target.Aligned i) (aligned' : target.Aligned j) : target.maxAlign ∣ i - j := by
  have split : i - j = i - 1 - (j - 1) := by
    have positive := aligned.1
    have positive' := aligned'.1
    omega
  rw [split]
  exact Nat.dvd_sub aligned.2 aligned'.2

theorem Consecutive.first_aligned (covers : Consecutive target heap i ks j) (start : target.Aligned i) (inside : k ∈ ks)
    (isChunk : heap k = some c) : target.Aligned c.first := by
  obtain ⟨front, back, rfl⟩ := List.append_of_mem inside
  obtain ⟨m, before, c', isChunk', first, -⟩ := append_iff.mp covers
  obtain rfl := Option.some.inj (isChunk'.symm.trans isChunk)
  rw [first]
  exact before.aligned start

/-- The client is valid with the allocation, when the memory of a new chunk is supplied as it has to be. -/
def Granted (target : Target) (client : Client) (size : Nat) (r : Except Stack2Error (Stack2 × Nat)) : Prop :=
  ∃ s' address, r = .ok (s', address) ∧ (NewSupplied target client.stack s' →
    Client.Valid target ⟨s', ⟨address, size⟩ :: client.live, client.marks⟩)

theorem newChunk_granted {client : Client} (isOpen : s.Open target l j) (sameFresh : s.fresh = client.stack.fresh)
    (above : client.stack.top ≤ j) (known : ∀ k c, client.stack.heap k = some c → k < client.stack.fresh)
    (nested : Nested target client.stack.heap client.stack.top client.live client.marks)
    (kept : ∀ k c, client.stack.heap k = some c → c.first ≤ client.stack.top → Kept client.stack.heap s.heap k)
    (mem size : Nat) : Granted target client size (s.newChunk mem (target.alignedSize size)) := by
  obtain ⟨s', run, freshed, top, isNew, keeps, isValid⟩ := newChunk_spec isOpen mem size
  refine ⟨s', mem, run, fun supplied => ?_⟩
  rw [sameFresh] at isNew keeps isValid
  have valid := isValid (supplied _ (by omega) isNew)
  have bigger : target.alignedSize size ≤ target.chunkSize size := le_max_left _ _
  have positive := chunkSize_pos target size
  have aligned : target.Aligned (j + target.chunkSize size) := valid.covers.aligned (aligned_one target)
  have nested' : Nested target s'.heap client.stack.top client.live client.marks := by
    refine nested.kept fun k c isChunk first d isD => ?_
    obtain ⟨d₁, isD₁, first₁, last₁, base₁⟩ := kept k c isChunk first d isD
    obtain ⟨d₂, isD₂, first₂, last₂, base₂⟩ := keeps k (Nat.ne_of_lt (known k c isChunk)) d₁ isD₁
    exact ⟨d₂, isD₂, first₂.trans first₁, last₂.trans last₁, base₂.trans base₁⟩
  have placed := @Nested.allocate target s'.heap _ j _ client.stack.top s'.top client.live client.marks nested' above size isNew
    (Nat.le_refl j) (by show _ ≤ j + target.chunkSize size - 1 + 1; omega) (by omega) (by simp) (top ▸ aligned)
  refine ⟨_, _, valid, Nat.le_of_eq top, ?_⟩
  simpa using placed

/-- The stack when the chunks behind one are freed. -/
def Stack2.without (s : Stack2) (back : List Nat) (k : Nat) : Stack2 :=
  { s with lastChunk := k, heap := fun a => if a ∈ back then none else s.heap a }

theorem Stack2.Valid.without {front : List Nat} (valid : s.Valid target (front ++ k :: back) j) (isChunk : s.heap k = some c) :
    (s.without back k).Open target front (c.last + 1) ∧
      ∀ a e, s.heap a = some e → e.first ≤ c.last → Kept s.heap (s.without back k).heap a := by
  have split : front ++ k :: back = (front ++ [k]) ++ back := by simp
  obtain ⟨r, pathFront, start, next, link, -⟩ := Segment.append_iff.mp valid.path
  obtain ⟨m, coversFront, c', isChunk', first, nonempty, size, coversBack⟩ := Consecutive.append_iff.mp valid.covers
  obtain rfl := Option.some.inj (isChunk'.symm.trans isChunk)
  have distinct := valid.path.nodup
  have apart : ∀ a ∈ front ++ [k], a ∉ back := by
    intro a inside inBack
    rw [split] at distinct
    exact (List.nodup_append.mp distinct).2.2 a inside a inBack rfl
  have left : ∀ a, a ∉ back → (s.without back k).heap a = s.heap a := fun a outside => if_neg outside
  have still : ∀ a e, (s.without back k).heap a = some e → a ∉ back ∧ s.heap a = some e := by
    intro a e isE
    by_cases inBack : a ∈ back
    · rw [show (s.without back k).heap a = none from if_pos inBack] at isE
      cases isE
    · exact ⟨inBack, (left a inBack).symm.trans isE⟩
  refine ⟨⟨⟨next, ?_⟩, ?_, ?_, ?_, ?_, ?_, ?_⟩, ?_⟩
  · refine (Segment.congr fun a inside => ?_).mpr (Segment.append_iff.mpr ⟨r, pathFront, start, next, link, rfl⟩)
    rw [links, links, left a (apart a inside)]
  · refine @Consecutive.kept target s.heap _ 1 _ _ ?_ fun a inside e isE => ⟨e, (left a (apart a inside)).trans isE, rfl, rfl, rfl⟩
    exact Consecutive.append_iff.mpr ⟨m, coversFront, c', isChunk, first, nonempty, size, rfl⟩
  · intro a inside
    exact valid.below a (by rw [split]; exact List.mem_append_left _ inside)
  · intro inFront
    exact (List.nodup_append.mp distinct).2.2 k inFront k List.mem_cons_self rfl
  · intro a e isE
    obtain ⟨notBack, isE⟩ := still a e isE
    have member := valid.known a e isE
    rw [split] at member
    exact (List.mem_append.mp member).resolve_right notBack
  · intro a e isE
    exact valid.aligned a e (still a e isE).2
  · intro a a' e e' isE isE' different
    exact valid.apart a a' e e' (still a e isE).2 (still a' e' isE').2 different
  · intro a e isE below e' isE'
    have notBack : a ∉ back := by
      intro inBack
      have above := (coversBack.bounds inBack isE).1
      omega
    exact ⟨e', (left a notBack).trans isE', rfl, rfl, rfl⟩

theorem allocate_granted {client : Client} (valid : client.Valid target) (mem size : Nat) :
    Granted target client size (allocate target mem size client.stack) := by
  obtain ⟨ks, stop, valid, high, nested⟩ := valid
  have low := nested.aligned.1
  have length : ks.length ≤ client.stack.fresh := valid.path.length_le valid.below
  have known : ∀ k c, client.stack.heap k = some c → k < client.stack.fresh :=
    fun k c isChunk => valid.below k (valid.known k c isChunk)
  have itself : ∀ k c, client.stack.heap k = some c → c.first ≤ client.stack.top →
      Kept client.stack.heap client.stack.heap k := fun k c isChunk first d isD => ⟨d, isD, rfl, rfl, rfl⟩
  unfold allocate
  rcases findChunk_spec valid.path valid.covers low high length with ⟨atStop, run⟩ | ⟨front, k, c, back, rfl, isChunk, first, last, run⟩
  · obtain ⟨l, rfl⟩ := valid.last_split
    rw [run]
    exact newChunk_granted valid.open rfl high known nested itself mem size
  have inside : k ∈ front ++ k :: back := List.mem_append_right _ List.mem_cons_self
  have firstAligned := valid.covers.first_aligned (aligned_one target) inside isChunk
  have bounds := valid.covers.bounds inside isChunk
  obtain ⟨r, pathFront, start, next, link, pathBack⟩ := Segment.append_iff.mp valid.path
  obtain ⟨m, coversFront, c', isChunk', first', -, -, coversBack⟩ := Consecutive.append_iff.mp valid.covers
  obtain rfl := Option.some.inj (isChunk'.symm.trans isChunk)
  rw [links_eq isChunk, Option.some.injEq] at link
  subst link
  rw [run]
  show Granted target client size (client.stack.deref k >>= _)
  rw [deref_ok isChunk]
  show Granted target client size (if target.alignedSize size ≤ c'.last - client.stack.top + 1 then _ else _)
  by_cases fits : target.alignedSize size ≤ c'.last - client.stack.top + 1
  · rw [if_pos fits]
    refine ⟨_, _, rfl, fun _ => ⟨_, _, ⟨valid.path, valid.covers, valid.last, valid.below, valid.known, valid.aligned,
      valid.apart⟩, show client.stack.top + _ ≤ stop by omega, ?_⟩⟩
    exact nested.allocate (Nat.le_refl _) isChunk first (by omega) (Nat.le_refl _) (nested.aligned.sub firstAligned)
      (nested.aligned.add size)
  rw [if_neg fits]
  cases next : c'.next with
  | none =>
    have empty : back = [] := by
      rw [next] at pathBack
      cases back with
      | nil => rfl
      | cons a back => exact absurd pathBack.1 (by simp)
    subst empty
    have isLast : k = client.stack.lastChunk := by
      have last' := valid.last
      rw [List.getLast?_append] at last'
      simpa using last'
    subst isLast
    exact newChunk_granted valid.open rfl high known nested itself mem size
  | some n =>
    rw [next] at pathBack
    obtain ⟨back', rfl⟩ : ∃ back', back = n :: back' := by
      cases back with
      | nil => exact absurd (show some n = none from pathBack) (by simp)
      | cons a back' => exact ⟨back', by rw [Option.some.inj pathBack.1]⟩
    obtain ⟨d, isD, firstD, nonemptyD, -, -⟩ := coversBack
    have insideD : n ∈ front ++ k :: n :: back' := by simp
    have boundsD := valid.covers.bounds insideD isD
    have alignedD := valid.covers.first_aligned (aligned_one target) insideD isD
    show Granted target client size (client.stack.deref n >>= _)
    rw [deref_ok isD]
    show Granted target client size (if target.alignedSize size ≤ d.last - d.first + 1 then _ else _)
    by_cases fitsD : target.alignedSize size ≤ d.last - d.first + 1
    · rw [if_pos fitsD]
      refine ⟨_, _, rfl, fun _ => ⟨_, _, ⟨valid.path, valid.covers, valid.last, valid.below, valid.known, valid.aligned,
        valid.apart⟩, show d.first + _ ≤ stop by omega, ?_⟩⟩
      have placed := @Nested.allocate target _ d d.first n client.stack.top (d.first + target.alignedSize size) _ _ nested
        (by omega) size isD (Nat.le_refl _) (by omega) (Nat.le_refl _) (by simp) (alignedD.add size)
      simpa using placed
    rw [if_neg fitsD]
    have freed : Stack2.freeChunks client.stack.fresh n { client.stack with lastChunk := k } = _ :=
      freeChunks_spec pathBack (by rw [List.length_append, List.length_cons] at length; omega)
    show Granted target client size (Stack2.freeChunks client.stack.fresh n _ >>= _)
    rw [freed]
    obtain ⟨isOpen, kept⟩ := valid.without isChunk
    exact newChunk_granted isOpen rfl (by omega) known nested
      (fun a e isE below => kept a e isE (below.trans last)) mem size

theorem step_valid {client client' : Client} {op : Operation} (valid : client.Valid target)
    (enabled : (system target).enabled client op = true) (supplied : Supplied target client op)
    (result : client.step target op = .ok client') : client'.Valid target := by
  cases op with
  | mark =>
    cases result
    obtain ⟨ks, stop, valid, high, nested⟩ := valid
    exact ⟨ks, stop, valid, high, nested.aligned, nested.stacked, Nat.le_refl _, List.suffix_rfl, nested⟩
  | allocate mem size =>
    obtain ⟨s', address, run, isValid⟩ := allocate_granted valid mem size
    have step : client.step target (.allocate mem size) = .ok { client with stack := s', live := ⟨address, size⟩ :: client.live } := by
      show (Secondary.allocate target mem size client.stack >>= _) = _
      rw [run]
      rfl
    have news := supplied _ step
    rw [step] at result
    cases result
    exact isValid news
  | release k =>
    obtain ⟨ks, stop, valid, high, nested⟩ := valid
    have some' : k < client.marks.length := of_decide_eq_true enabled
    obtain ⟨⟨mark, saved⟩, rest, dropped⟩ := List.exists_cons_of_ne_nil (fun none => absurd (List.drop_eq_nil_iff.mp none)
      (Nat.not_le_of_lt some'))
    obtain ⟨released, below, -⟩ := nested.release dropped
    have step : client.step target (.release k) = .ok ⟨client.stack.release mark, saved, rest⟩ := by
      unfold Client.step
      dsimp only
      rw [dropped]
    rw [step] at result
    cases result
    exact ⟨ks, stop, ⟨valid.path, valid.covers, valid.last, valid.below, valid.known, valid.aligned, valid.apart⟩,
      below.trans high, released⟩

theorem create_valid {mem : Nat} (aligned : target.maxAlign ∣ mem) : (Client.create mem).Valid target := by
  have heap : (create mem).heap = update (fun _ => none) 0 (some ⟨1, minChunkSize, none, mem⟩) := rfl
  have isChunk : (create mem).heap 0 = some ⟨1, minChunkSize, none, mem⟩ := by rw [heap, update_self]
  have only : ∀ k c, (create mem).heap k = some c → k = 0 ∧ c = ⟨1, minChunkSize, none, mem⟩ := by
    intro k c isC
    by_cases same : k = 0
    · subst same
      exact ⟨rfl, (Option.some.inj (isChunk.symm.trans isC)).symm⟩
    · rw [heap, update_of_ne same] at isC
      cases isC
  refine ⟨[0], minChunkSize + 1, ⟨⟨rfl, none, links_eq isChunk, rfl⟩, ⟨_, isChunk, rfl, show 1 ≤ minChunkSize by decide, target.divides, rfl⟩, rfl,
    ?_, ?_, ?_, ?_⟩, show 1 ≤ minChunkSize + 1 by decide, aligned_one target, .nil 1⟩
  · intro k inside
    rw [List.mem_singleton.mp inside]
    exact Nat.one_pos
  · intro k c isC
    exact List.mem_singleton.mpr (only k c isC).1
  · intro k c isC
    rw [(only k c isC).2]
    exact aligned
  · intro k k' c c' isC isC' different
    exact absurd ((only k c isC).1.trans (only k' c' isC').1.symm) different

/-- The bytes of two allocations are apart. -/
def Allocation.Apart (a b : Allocation) : Prop := a.address + a.size ≤ b.address ∨ b.address + b.size ≤ a.address

theorem Stacked.apart {s : Stack2} (valid : s.Valid target ks j) (stacked : Stacked target s.heap top live) :
    live.Pairwise Allocation.Apart := by
  induction stacked with
  | nil => exact List.Pairwise.nil
  | @cons top i k c live size below isChunk first fits within offset ih =>
    refine List.pairwise_cons.mpr ⟨fun a inside => ?_, ih⟩
    obtain ⟨k', c', i', isChunk', first', fits', within', -, address⟩ := below.located inside
    have enough := le_alignedSize target size
    have enough' := le_alignedSize target a.size
    rw [Allocation.Apart, address]
    by_cases same : k = k'
    · subst same
      obtain rfl := Option.some.inj (isChunk.symm.trans isChunk')
      right
      show c.base + (i' - c.first) + a.size ≤ c.base + (i - c.first)
      omega
    · have memory := valid.apart k k' c c' isChunk isChunk' same
      rw [Chunk.Apart, Chunk.size, Chunk.size] at memory
      show c.base + (i - c.first) + size ≤ _ ∨ _ ≤ c.base + (i - c.first)
      omega

/-- The alignment of a usual target. -/
def target16 : Target := ⟨16, by decide, ⟨512, rfl⟩⟩

end Ghdl.Secondary
