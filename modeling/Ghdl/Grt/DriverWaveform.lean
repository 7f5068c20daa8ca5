import Ghdl.System.Fallible
import Ghdl.Grt.Driver
import Ghdl.Linked.Segment
import Ghdl.Waveform.Preemption

/-!
# Drivers hold projected output waveforms

The list surgery of `Grt.Signals` refines the marking rules of LRM93 8.4.1. `TransHeap.Chain`
reads the cells between two links; each loop has one lemma that gives its result on a chain.
`Driver.Holds` says which transactions a driver holds and at which addresses, `Driver.Represents`
that they are a projected output waveform.
-/

namespace Ghdl.Grt

open Fallible Linked Projected Function

/-- A cell of a list: its address and the transaction in it. -/
abbrev TransEntry := TransPtr × Transaction

namespace TransHeap

/-- The link out of each allocated cell. -/
def next (heap : TransHeap) (p : TransPtr) : Option (Option TransPtr) :=
  (heap.cell p).map (·.next)

/-- Following the links from `p` visits the entries `l`, in order, and arrives at `q`. -/
structure Chain (heap : TransHeap) (p : Option TransPtr) (l : List TransEntry)
    (q : Option TransPtr) : Prop where
  /-- The links visit the addresses. -/
  path : Segment heap.next p (l.map Prod.fst) q
  /-- The transactions are at these addresses. -/
  content : ∀ e ∈ l, (heap.cell e.1).map (·.toTransaction) = some e.2

variable {heap heap' : TransHeap} {p q : Option TransPtr} {a : TransPtr} {t : Transaction}
  {l m : List TransEntry}

@[simp] theorem chain_nil : heap.Chain p [] q ↔ p = q :=
  ⟨fun chain => chain.path, fun same => ⟨same, by simp⟩⟩

theorem chain_cons : heap.Chain p ((a, t) :: l) q ↔ p = some a ∧ ∃ r, heap.cell a = some ⟨t, r⟩ ∧ heap.Chain r l q := by
  constructor
  · rintro ⟨⟨start, r, link, rest⟩, content⟩
    refine ⟨start, r, ?_, rest, fun e inside => content e (List.mem_cons_of_mem _ inside)⟩
    have stored := content (a, t) List.mem_cons_self
    obtain ⟨cell, found, rfl⟩ := Option.map_eq_some_iff.mp link
    rw [found] at stored ⊢
    obtain rfl := Option.some.inj stored
    rfl
  · rintro ⟨start, r, found, path, content⟩
    refine ⟨⟨start, r, by simp [next, found], path⟩, fun e inside => ?_⟩
    rcases List.mem_cons.mp inside with rfl | inside
    · simp [found]
    · exact content e inside

theorem chain_append : heap.Chain p (l ++ m) q ↔ ∃ r, heap.Chain p l r ∧ heap.Chain r m q := by
  constructor
  · rintro ⟨path, content⟩
    rw [List.map_append, Segment.append_iff] at path
    obtain ⟨r, front, back⟩ := path
    exact ⟨r, ⟨front, fun e inside => content e (List.mem_append_left m inside)⟩,
      ⟨back, fun e inside => content e (List.mem_append_right l inside)⟩⟩
  · rintro ⟨r, front, back⟩
    refine ⟨by rw [List.map_append]; exact front.path.append back.path, fun e inside => ?_⟩
    exact (List.mem_append.mp inside).elim (front.content e) (back.content e)

namespace Chain

/-- Chains depend only on their own cells. -/
theorem congr (chain : heap.Chain p l q) (same : ∀ e ∈ l, heap'.cell e.1 = heap.cell e.1) : heap'.Chain p l q where
  path := by
    refine (Segment.congr fun a inside => ?_).mpr chain.path
    obtain ⟨e, member, rfl⟩ := List.mem_map.mp inside
    simp only [next, same e member]
  content e inside := by rw [same e inside]; exact chain.content e inside

/-- The addresses of a list are distinct. -/
theorem nodup (chain : heap.Chain p l none) : (l.map Prod.fst).Nodup := chain.path.nodup

/-- A list starts at its first entry. -/
theorem start (chain : heap.Chain p l none) : p = l.head?.map Prod.fst := by
  cases l with
  | nil => exact chain_nil.mp chain
  | cons e l => exact (chain_cons.mp chain).1

theorem cell_of_mem (chain : heap.Chain p l q) {e : TransEntry} (inside : e ∈ l) :
    ∃ r, heap.cell e.1 = some ⟨e.2, r⟩ := by
  obtain ⟨cell, found, stored⟩ := Option.map_eq_some_iff.mp (chain.content e inside)
  exact ⟨cell.next, by rw [found, ← stored]⟩

theorem length_le (chain : heap.Chain p l none)
    (unused : ∀ p, heap.fresh ≤ p → heap.cell p = none) : l.length ≤ heap.fresh := by
  have below : ∀ a ∈ l.map Prod.fst, a < heap.fresh := by
    intro a inside
    obtain ⟨e, member, rfl⟩ := List.mem_map.mp inside
    obtain ⟨r, found⟩ := chain.cell_of_mem member
    by_contra above
    rw [unused _ (Nat.not_lt.mp above)] at found
    cases found
  simpa using chain.path.length_le below

end Chain

variable {cell : TransactionCell}

theorem read_some (found : heap.cell a = some cell) : heap.read (some a) = .ok cell := by
  simp only [read, found]

@[simp] theorem write_fresh (cell : TransactionCell) : (heap.write a cell).fresh = heap.fresh := rfl

theorem write_cell (cell : TransactionCell) : (heap.write a cell).cell a = some cell :=
  update_self _ _ _

theorem new_cell (trans : Transaction) : (heap.new trans).cell heap.fresh = some ⟨trans, none⟩ :=
  update_self _ _ _

/-- The cells released by a run of `Free`. -/
def freeAll (heap : TransHeap) (l : List TransPtr) : TransHeap := l.foldl free heap

theorem freeAll_cell (l : List TransPtr) (p : TransPtr) :
    (heap.freeAll l).cell p = if p ∈ l then none else heap.cell p := by
  induction l generalizing heap with
  | nil => rfl
  | cons a l ih =>
    change ((heap.free a).freeAll l).cell p = _
    rw [ih]
    by_cases inside : p ∈ l
    · simp [inside]
    · by_cases same : p = a <;> simp [inside, same, free]

@[simp] theorem freeAll_fresh (l : List TransPtr) : (heap.freeAll l).fresh = heap.fresh := by
  induction l generalizing heap with
  | nil => rfl
  | cons a l ih => exact @ih (heap.free a)

variable {fuel : Nat}

theorem freeFrom_eq (chain : heap.Chain (some a) ((a, t) :: l) none) (fits : l.length < fuel) :
    freeFrom fuel heap a = .ok (heap.freeAll (a :: l.map Prod.fst)) := by
  induction fuel generalizing heap a t l with
  | zero => omega
  | succ fuel ih =>
    obtain ⟨-, r, found, rest⟩ := chain_cons.mp chain
    simp only [freeFrom, read_some found]
    cases l with
    | nil =>
      obtain rfl := chain_nil.mp rest
      rfl
    | cons e l =>
      obtain ⟨rfl, -⟩ := chain_cons.mp rest
      have fresh : a ∉ (e :: l).map Prod.fst := (List.nodup_cons.mp chain.nodup).1
      have kept : (heap.free a).Chain (some e.1) (e :: l) none :=
        rest.congr fun e' inside => update_of_ne (ne_of_mem_of_not_mem (List.mem_map_of_mem inside) fresh) _ _
      exact ih kept (by simpa using fits)

theorem freeThrough_eq {stop : Option TransPtr} (chain : heap.Chain (some a) ((a, t) :: l) stop)
    (nodup : (((a, t) :: l).map Prod.fst).Nodup) (outside : ∀ e ∈ l, some e.1 ≠ stop) (fits : l.length < fuel) :
    freeThrough stop fuel heap (some a) = .ok (heap.freeAll (a :: l.map Prod.fst)) := by
  induction fuel generalizing heap a t l with
  | zero => omega
  | succ fuel ih =>
    obtain ⟨-, r, found, rest⟩ := chain_cons.mp chain
    simp only [freeThrough, read_some found]
    cases l with
    | nil =>
      obtain rfl := chain_nil.mp rest
      simp [freeAll, bind, Except.bind]
    | cons e l =>
      obtain ⟨rfl, -⟩ := chain_cons.mp rest
      have fresh : a ∉ (e :: l).map Prod.fst := (List.nodup_cons.mp nodup).1
      have kept : (heap.free a).Chain (some e.1) (e :: l) stop :=
        rest.congr fun e' inside => update_of_ne (ne_of_mem_of_not_mem (List.mem_map_of_mem inside) fresh) _ _
      have more := ih kept (List.nodup_cons.mp nodup).2
        (fun e' inside => outside e' (List.mem_cons_of_mem e inside)) (by simpa using fits)
      simp only [bind, Except.bind, if_neg (outside e List.mem_cons_self)]
      exact more

theorem findDeleted_eq {assignTime : Int} {last : TransPtr}
    {kept dropped : List TransEntry} (chain : heap.Chain p (kept ++ dropped) none)
    (early : ∀ e ∈ kept, e.2.time < assignTime)
    (late : ∀ e ∈ dropped, assignTime ≤ e.2.time) (fits : kept.length < fuel) :
    heap.findDeleted assignTime fuel last p = .ok ((kept.map Prod.fst).getLastD last, dropped.head?.map Prod.fst) := by
  induction kept generalizing p fuel last with
  | nil =>
    obtain ⟨fuel, rfl⟩ := fuel_succ fits
    cases dropped with
    | nil =>
      obtain rfl := chain_nil.mp chain
      rfl
    | cons e dropped =>
      obtain ⟨rfl, r, found, -⟩ := chain_cons.mp chain
      have stays : ¬e.2.time < assignTime := not_lt.mpr (late e List.mem_cons_self)
      simp [findDeleted, read_some found, bind, Except.bind, stays]
  | cons e kept ih =>
    obtain ⟨fuel, rfl⟩ := fuel_succ fits
    obtain ⟨rfl, r, found, rest⟩ := chain_cons.mp chain
    have moves : e.2.time < assignTime := early e List.mem_cons_self
    have more := @ih _ fuel e.1 rest (fun e' inside => early e' (List.mem_cons_of_mem e inside)) (by simpa using fits)
    simp only [findDeleted, read_some found, bind, Except.bind, moves, if_true, more,
      List.map_cons, List.getLastD_cons]

theorem findWindow_eq {limit : Int} {early window : List TransEntry}
    (chain : heap.Chain (some a) ((a, t) :: (early ++ window)) none)
    (before : ∀ e ∈ early, e.2.time < limit) (after : ∀ e ∈ window, limit ≤ e.2.time)
    (ends : window ≠ []) (fits : early.length < fuel) : heap.findWindow limit fuel a =
      .ok ((early.map Prod.fst).getLastD a, window.head?.map Prod.fst) := by
  induction early generalizing a t fuel with
  | nil =>
    obtain ⟨fuel, rfl⟩ := fuel_succ fits
    obtain ⟨e, window, rfl⟩ := List.exists_cons_of_ne_nil ends
    obtain ⟨-, r, found, rest⟩ := chain_cons.mp chain
    obtain ⟨rfl, r', found', -⟩ := chain_cons.mp rest
    have stays : limit ≤ e.2.time := after e List.mem_cons_self
    simp [findWindow, read_some found, read_some found', bind, Except.bind, stays]
  | cons e early ih =>
    obtain ⟨fuel, rfl⟩ := fuel_succ fits
    obtain ⟨-, r, found, rest⟩ := chain_cons.mp chain
    obtain ⟨rfl, r', found', -⟩ := chain_cons.mp rest
    have moves : ¬limit ≤ e.2.time := not_le.mpr (before e List.mem_cons_self)
    have more := @ih e.1 e.2 fuel rest
      (fun e' inside => before e' (List.mem_cons_of_mem e inside)) (by simpa using fits)
    simp only [findWindow, read_some found, read_some found', bind, Except.bind, moves, if_false,
      more, List.map_cons, List.getLastD_cons]

variable {front : List TransEntry}

/-- Redirecting the link of a cell past the cells after it, and freeing these, takes them out of
the list. -/
theorem Chain.remove {mid back : List TransEntry} (chain : heap.Chain p (front ++ (a, t) :: (mid ++ back)) none) :
    ((heap.write a ⟨t, back.head?.map Prod.fst⟩).freeAll (mid.map Prod.fst)).Chain p
      (front ++ (a, t) :: back) none := by
  have distinct := chain.nodup
  simp only [List.map_append, List.map_cons] at distinct
  rw [List.nodup_middle] at distinct
  simp only [List.nodup_cons, List.nodup_append, List.mem_append, not_or, ← List.append_assoc] at distinct
  obtain ⟨⟨⟨fresh, freshMid⟩, freshBack⟩, ⟨-, -, apart⟩, -, apartBack⟩ := distinct
  have outside : ∀ e ∈ front ++ back, e.1 ≠ a ∧ e.1 ∉ mid.map Prod.fst := by
    intro e inside
    rcases List.mem_append.mp inside with inside | inside
    · have member : e.1 ∈ front.map Prod.fst := List.mem_map_of_mem inside
      exact ⟨ne_of_mem_of_not_mem member fresh, fun both => apart _ member _ both rfl⟩
    · have member : e.1 ∈ back.map Prod.fst := List.mem_map_of_mem inside
      exact ⟨ne_of_mem_of_not_mem member freshBack, fun both => apartBack _ (.inr both) _ member rfl⟩
  have kept : ∀ e ∈ front ++ back,
      ((heap.write a ⟨t, back.head?.map Prod.fst⟩).freeAll (mid.map Prod.fst)).cell e.1 = heap.cell e.1 := by
    intro e inside
    rw [freeAll_cell, if_neg (outside e inside).2]
    exact update_of_ne (outside e inside).1 _ _
  obtain ⟨r, before, rest⟩ := chain_append.mp chain
  obtain ⟨rfl, s, -, rest⟩ := chain_cons.mp rest
  obtain ⟨s, -, after⟩ := chain_append.mp rest
  have arrived := after.start
  subst arrived
  refine chain_append.mpr ⟨some a, before.congr fun e inside =>
    kept e (List.mem_append_left back inside), chain_cons.mpr ⟨rfl, _, ?_,
      after.congr fun e inside => kept e (List.mem_append_right front inside)⟩⟩
  rw [freeAll_cell, if_neg freshMid]
  exact update_self _ _ _

/-- Redirecting the link of a cell past the cells after it and running the loop over these
takes them out of the list. -/
theorem freeThrough_removed {mid back : List TransEntry}
    (chain : heap.Chain p (front ++ (a, t) :: (mid ++ back)) none) (nonempty : mid ≠ [])
    (unused : ∀ p, heap.fresh ≤ p → heap.cell p = none) (found : heap.cell a = some cell) :
    freeThrough (back.head?.map Prod.fst) (heap.fresh + 1)
        (heap.write a { cell with next := back.head?.map Prod.fst }) cell.next =
      .ok ((heap.write a ⟨t, back.head?.map Prod.fst⟩).freeAll (mid.map Prod.fst)) := by
  obtain ⟨s, -, tail⟩ := chain_append.mp chain
  obtain ⟨rfl, s, stored, tail⟩ := chain_cons.mp tail
  rw [found] at stored
  obtain rfl := Option.some.inj stored
  obtain ⟨s', middle, after⟩ := chain_append.mp tail
  obtain rfl := after.start
  obtain ⟨e, mid, rfl⟩ := List.exists_cons_of_ne_nil nonempty
  obtain ⟨rfl, -⟩ := chain_cons.mp middle
  have distinct := chain.nodup
  simp only [List.map_append, List.map_cons] at distinct
  have tailDistinct := (List.nodup_append.mp distinct).2.1
  obtain ⟨fresh, tailDistinct⟩ := List.nodup_cons.mp tailDistinct
  obtain ⟨midDistinct, -, apart⟩ := List.nodup_append.mp tailDistinct
  have kept : (heap.write a ⟨t, back.head?.map Prod.fst⟩).Chain (some e.1) (e :: mid)
      (back.head?.map Prod.fst) :=
    middle.congr fun e' inside => update_of_ne
      (ne_of_mem_of_not_mem (List.mem_append_left _ (List.mem_map_of_mem inside)) fresh) _ _
  have fits := chain.length_le unused
  simp only [List.length_append, List.length_cons] at fits
  refine freeThrough_eq kept midDistinct (fun e' inside => ?_) (by omega)
  cases back with
  | nil => simp
  | cons b back =>
    intro same
    exact apart e'.1 (List.mem_cons_of_mem _ (List.mem_map_of_mem inside)) b.1 (by simp) (by simpa using same)

theorem unused_removed {link : TransactionCell} {addresses : List TransPtr}
    (unused : ∀ p, heap.fresh ≤ p → heap.cell p = none) (found : heap.cell a = some cell) :
    ∀ p, ((heap.write a link).freeAll addresses).fresh ≤ p → ((heap.write a link).freeAll addresses).cell p = none := by
  intro p above
  rw [freeAll_fresh, write_fresh] at above
  rw [freeAll_cell]
  split
  · rfl
  · refine (update_of_ne ?_ _ _).trans (unused p above)
    rintro rfl
    rw [unused _ above] at found
    cases found

/-- The scan of the rejection window keeps, before the new transaction, the run of equal
transactions at the end of the window. The transactions `run`, scanned since the last different
one, are still there, and `rest` is to be scanned. -/
theorem scanWindow_spec (mode : ModeType) {added : TransEntry} {run rest : List TransEntry}
    (chain : heap.Chain p (front ++ (a, t) :: (run ++ (rest ++ [added]))) none)
    (unused : ∀ p, heap.fresh ≤ p → heap.cell p = none)
    (equal : ∀ e ∈ run, e.2.kind.differs mode added.2.kind = false) (fits : rest.length < fuel) :
    ∃ heap', scanWindow mode added.1 added.2.kind fuel heap a ((rest ++ [added]).head?.map Prod.fst) = .ok heap' ∧
      heap'.fresh = heap.fresh ∧ (∀ p, heap.fresh ≤ p → heap'.cell p = none) ∧ heap'.Chain p (front ++ (a, t) ::
        ((run ++ rest).rtakeWhile (fun e => !e.2.kind.differs mode added.2.kind) ++ [added])) none := by
  induction rest generalizing heap run fuel with
  | nil =>
    obtain ⟨fuel, rfl⟩ := fuel_succ fits
    have all : run.rtakeWhile (fun e => !e.2.kind.differs mode added.2.kind) = run :=
      List.rtakeWhile_eq_self_iff.mpr fun e inside => by simp [equal e inside]
    refine ⟨heap, by simp [scanWindow], rfl, unused, ?_⟩
    simpa [all] using chain
  | cons e rest ih =>
    obtain ⟨fuel, rfl⟩ := fuel_succ fits
    -- The scanned transaction is not the new one, which is the last of the list.
    have apart : e.1 ≠ added.1 := by
      have distinct := chain.nodup
      simp only [List.map_append, List.map_cons, List.cons_append] at distinct
      have tail := (List.nodup_cons.mp (List.nodup_append.mp distinct).2.1).2
      have last := (List.nodup_cons.mp (List.nodup_append.mp tail).2.1).1
      exact fun same => last (by simp [same])
    obtain ⟨s, -, tail⟩ := chain_append.mp chain
    obtain ⟨rfl, s, foundPrev, tail⟩ := chain_cons.mp tail
    obtain ⟨s', -, tail⟩ := chain_append.mp tail
    rw [List.cons_append] at tail
    obtain ⟨rfl, link, found, tail⟩ := chain_cons.mp tail
    obtain rfl := tail.start
    have running : some e.1 ≠ some added.1 := fun same => apart (Option.some.inj same)
    by_cases differs : e.2.kind.differs mode added.2.kind = true
    · -- Every transaction scanned so far is deleted, this one included.
      have split : heap.Chain p (front ++ (a, t) :: ((run ++ [e]) ++ (rest ++ [added]))) none := by
        simpa using chain
      have freed := freeThrough_removed split (by simp) unused foundPrev
      simp only at freed
      have removed := Chain.remove split
      obtain ⟨heap', result, fresh, bound, final⟩ := @ih _ fuel [] removed
        (unused_removed unused foundPrev) (by simp) (by simpa using fits)
      simp only [freeAll_fresh, write_fresh] at fresh bound
      refine ⟨heap', ?_, fresh, bound, ?_⟩
      · simp only [List.cons_append, List.head?_cons, Option.map_some, scanWindow, running,
          if_false, read_some found, read_some foundPrev, differs, if_true, bind, Except.bind]
        rw [freed]
        exact result
      · rw [rtakeWhile_append_cons_neg _ _ _ (by simp [differs])]
        exact final
    · -- The run grows by this transaction.
      have same : e.2.kind.differs mode added.2.kind = false := by simpa using differs
      obtain ⟨heap', result, fresh, bound, final⟩ := @ih _ fuel (run ++ [e])
        (by simpa using chain) unused
        (fun e' inside => by
          rcases List.mem_append.mp inside with inside | inside
          · exact equal e' inside
          · rw [List.mem_singleton.mp inside, same])
        (by simpa using fits)
      refine ⟨heap', ?_, fresh, bound, by simpa using final⟩
      simp only [List.cons_append, List.head?_cons, Option.map_some, scanWindow, running,
        if_false, read_some found, same, bind, Except.bind]
      simpa using result

end TransHeap

namespace Driver

variable {driver : Driver} {first : TransEntry} {pending : List TransEntry} {mode : ModeType}
  {kind : TransactionKind} {assignTime : Int}

/-- The driver holds these transactions, the current one first, at these addresses. -/
structure Holds (driver : Driver) (first : TransEntry) (pending : List TransEntry) : Prop where
  /-- The list starts at `First_Trans` and ends with the null link. -/
  chain : driver.heap.Chain (some driver.firstTrans) (first :: pending) none
  /-- `Last_Trans` is the last cell of the list. -/
  last : ((first :: pending).map Prod.fst).getLast? = some driver.lastTrans
  /-- No cell is allocated beyond the youngest. -/
  unused : ∀ p, driver.heap.fresh ≤ p → driver.heap.cell p = none

namespace Holds

section

variable (holds : driver.Holds first pending)
include holds

/-- The current transaction is at `First_Trans`. -/
theorem firstTrans : driver.firstTrans = first.1 :=
  Option.some.inj (TransHeap.chain_cons.mp holds.chain).1

/-- `First_Trans.Next` leads to the first pending transaction. -/
theorem firstCell :
    driver.heap.cell driver.firstTrans = some ⟨first.2, pending.head?.map Prod.fst⟩ := by
  obtain ⟨start, r, found, rest⟩ := TransHeap.chain_cons.mp holds.chain
  obtain rfl := rest.start
  rw [Option.some.inj start]
  exact found

/-- The list ends with the transaction at `Last_Trans`. -/
theorem atEnd :
    ∃ front t, first :: pending = front ++ [(driver.lastTrans, t)] := by
  obtain ⟨addresses, split⟩ := List.getLast?_eq_some_iff.mp holds.last
  obtain ⟨front, back, whole, -, single⟩ := List.map_eq_append_iff.mp split
  obtain ⟨⟨a, t⟩, rfl, rfl⟩ := List.map_eq_singleton_iff.mp single
  exact ⟨front, t, whole⟩

end

/-- `Last_Trans` is the last transaction of the list, with a null link. -/
theorem lastCell {front : List TransEntry} {t : Transaction} (holds : driver.Holds first pending)
    (split : first :: pending = front ++ [(driver.lastTrans, t)]) :
    driver.heap.cell driver.lastTrans = some ⟨t, none⟩ := by
  have chain := holds.chain
  rw [split] at chain
  obtain ⟨r, -, tail⟩ := TransHeap.chain_append.mp chain
  obtain ⟨-, r, found, ends⟩ := TransHeap.chain_cons.mp tail
  obtain rfl := TransHeap.chain_nil.mp ends
  exact found

/-- The pending transactions follow `First_Trans.Next`. -/
theorem rest (holds : driver.Holds first pending) : driver.heap.Chain (pending.head?.map Prod.fst) pending none := by
  obtain ⟨-, r, -, rest⟩ := TransHeap.chain_cons.mp holds.chain
  obtain rfl := rest.start
  exact rest

theorem keptEnd {kept dropped : List TransEntry} (holds : driver.Holds first (kept ++ dropped)) :
    ∃ before t, first :: kept = before ++ [((kept.map Prod.fst).getLastD driver.firstTrans, t)] := by
  rcases List.eq_nil_or_concat kept with rfl | ⟨front, e, rfl⟩
  · exact ⟨[], first.2, by simp [holds.firstTrans]⟩
  · exact ⟨first :: front, e.2, by simp⟩

section

variable (holds : driver.Holds first pending)
include holds

/-- Every transaction of the list is allocated below the bound. -/
theorem below {e : TransEntry}
    (inside : e ∈ first :: pending) : e.1 < driver.heap.fresh := by
  obtain ⟨r, found⟩ := holds.chain.cell_of_mem inside
  by_contra above
  rw [holds.unused _ (Nat.not_lt.mp above)] at found
  cases found

/-- A new cell is not on the list. -/
theorem new (trans : Transaction) :
    Holds { driver with heap := driver.heap.new trans } first pending where
  chain := holds.chain.congr fun _ inside =>
    update_of_ne (Nat.ne_of_lt (holds.below inside)) _ _
  last := holds.last
  unused p above := (update_of_ne (Nat.ne_of_gt above) _ _).trans (holds.unused p (Nat.le_of_succ_le above))

/-- A write outside the list keeps it. -/
theorem write {p : TransPtr} (cell : TransactionCell)
    (outside : ∀ e ∈ first :: pending, e.1 ≠ p) (inside : p < driver.heap.fresh) :
    Holds { driver with heap := driver.heap.write p cell } first pending where
  chain := holds.chain.congr fun e member => update_of_ne (outside e member) _ _
  last := holds.last
  unused p' above :=
    (update_of_ne (Nat.ne_of_gt (Nat.lt_of_lt_of_le inside above)) _ _).trans (holds.unused p' above)

end

end Holds

theorem create_holds (proc : ProcId) (val : ValueUnion) : (create proc val).Holds (0, ⟨.value val, 0⟩) [] where
  chain := TransHeap.chain_cons.mpr ⟨rfl, none, TransHeap.new_cell _, by simp⟩
  last := rfl
  unused _ above := update_of_ne (Nat.ne_of_gt above) _ _

theorem append_spec {trans : TransPtr} {t : Transaction} (holds : driver.Holds first pending)
    (outside : ∀ e ∈ first :: pending, e.1 ≠ trans) (found : driver.heap.cell trans = some ⟨t, none⟩) :
    ∃ driver', driver.append trans = .ok driver' ∧ driver'.Holds first (pending ++ [(trans, t)]) ∧
      driver'.heap.fresh = driver.heap.fresh := by
  obtain ⟨front, lastOld, split⟩ := holds.atEnd
  have result : driver.append trans = .ok { driver with
      lastTrans := trans
      heap := driver.heap.write driver.lastTrans ⟨lastOld, some trans⟩ } := by
    rw [append, TransHeap.read_some (holds.lastCell split)]
    rfl
  have member : (driver.lastTrans, lastOld) ∈ first :: pending := by simp [split]
  have distinct := holds.chain.nodup
  have chain := holds.chain
  rw [split] at chain distinct
  obtain ⟨r, before, tail⟩ := TransHeap.chain_append.mp chain
  obtain ⟨rfl, -⟩ := TransHeap.chain_cons.mp tail
  have fresh : ∀ e ∈ front, e.1 ≠ driver.lastTrans := by
    simp only [List.map_append, List.nodup_append] at distinct
    exact fun e inside => distinct.2.2 _ (List.mem_map_of_mem inside) _ (by simp)
  refine ⟨_, result, ⟨?_, ?_, ?_⟩, rfl⟩
  · rw [← List.cons_append, split, List.append_assoc]
    refine TransHeap.chain_append.mpr ⟨_, before.congr fun e inside => ?_,
      TransHeap.chain_cons.mpr ⟨rfl, some trans, update_self _ _ _,
        TransHeap.chain_cons.mpr ⟨rfl, none, ?_, by simp⟩⟩⟩
    · exact update_of_ne (fresh e inside) _ _
    · exact (update_of_ne (outside _ member).symm _ _).trans found
  · rw [← List.cons_append, List.map_append]
    exact List.getLast?_concat
  · intro p above
    have inside := holds.below member
    exact (update_of_ne (Nat.ne_of_gt (Nat.lt_of_lt_of_le inside above)) _ _).trans (holds.unused p above)

/-- Times increase along the pending transactions. -/
def Ascending (pending : List TransEntry) : Prop :=
  pending.Pairwise fun earlier later => earlier.2.time < later.2.time

theorem Ascending.split (ascending : Ascending pending) (limit : Int) :
    pending = pending.filter (fun e => e.2.time < limit) ++ pending.filter (fun e => limit ≤ e.2.time) := by
  induction pending with
  | nil => rfl
  | cons e pending ih =>
    obtain ⟨later, tail⟩ := List.pairwise_cons.mp ascending
    by_cases before : e.2.time < limit
    · have rest := ih tail
      simp [before, not_le.mpr before, ← rest]
    have late : ∀ e' ∈ e :: pending, limit ≤ e'.2.time := by
      intro e' inside
      rcases List.mem_cons.mp inside with rfl | inside
      · exact not_lt.mp before
      · exact (not_lt.mp before).trans (later e' inside).le
    have none : (e :: pending).filter (fun e => e.2.time < limit) = [] :=
      List.filter_eq_nil_iff.mpr fun e' inside => by simpa using late e' inside
    have all : (e :: pending).filter (fun e => limit ≤ e.2.time) = e :: pending :=
      List.filter_eq_self.mpr fun e' inside => by simpa using late e' inside
    rw [none, all, List.nil_append]

theorem deleteOld_cut {kept dropped : List TransEntry} (holds : driver.Holds first (kept ++ dropped))
    (early : ∀ e ∈ kept, e.2.time < assignTime) (late : ∀ e ∈ dropped, assignTime ≤ e.2.time) :
    ∃ driver', driver.deleteOld assignTime = .ok driver' ∧ driver'.Holds first kept ∧
      driver'.heap.fresh = driver.heap.fresh := by
  obtain ⟨front, lastOld, atEnd⟩ := holds.atEnd
  have lastRead := TransHeap.read_some (holds.lastCell atEnd)
  have firstRead := TransHeap.read_some holds.firstCell
  have fits := holds.chain.length_le holds.unused
  simp only [List.length_cons, List.length_append] at fits
  have search : driver.heap.findDeleted assignTime (driver.heap.fresh + 1) driver.firstTrans
      ((kept ++ dropped).head?.map Prod.fst) =
        .ok ((kept.map Prod.fst).getLastD driver.firstTrans, dropped.head?.map Prod.fst) :=
    TransHeap.findDeleted_eq holds.rest early late (by omega)
  cases dropped with
  | nil =>
    refine ⟨driver, ?_, by simpa using holds, rfl⟩
    simp only [deleteOld, lastRead, firstRead, search, bind, Except.bind, List.head?_nil, Option.map_none, ite_self]
  | cons next dropped =>
    -- The last transaction of the list is not kept, so the guard of the search holds.
    have beyond : assignTime ≤ lastOld.time := by
      have member : (driver.lastTrans, lastOld) ∈ next :: dropped := by
        have ends := congrArg List.getLast? atEnd
        rw [← List.cons_append, List.getLast?_append_of_ne_nil _ (List.cons_ne_nil _ _), List.getLast?_concat] at ends
        exact List.mem_of_getLast? ends
      exact late _ member
    obtain ⟨before, lastKept, keptEnd⟩ := holds.keptEnd
    have chain := holds.chain
    rw [← List.cons_append, keptEnd, List.append_assoc, List.singleton_append] at chain
    obtain ⟨r, -, tail⟩ := TransHeap.chain_append.mp chain
    obtain ⟨-, r, found, tail⟩ := TransHeap.chain_cons.mp tail
    obtain rfl := tail.start
    have distinct := chain.nodup
    simp only [List.map_append, List.map_cons] at distinct
    have fresh := (List.nodup_cons.mp (List.nodup_append.mp distinct).2.1).1
    have cut : (driver.heap.write ((kept.map Prod.fst).getLastD driver.firstTrans)
        ⟨lastKept, none⟩).Chain (some next.1) (next :: dropped) none :=
      tail.congr fun e inside => update_of_ne (ne_of_mem_of_not_mem (List.mem_map_of_mem inside) fresh) _ _
    have freed : TransHeap.freeFrom (driver.heap.fresh + 1) (driver.heap.write
        ((kept.map Prod.fst).getLastD driver.firstTrans) ⟨lastKept, none⟩) next.1 =
          .ok ((driver.heap.write ((kept.map Prod.fst).getLastD driver.firstTrans)
            ⟨lastKept, none⟩).freeAll ((next :: dropped).map Prod.fst)) :=
      TransHeap.freeFrom_eq cut (by simp only [List.length_cons] at fits; omega)
    have result : driver.deleteOld assignTime = .ok { driver with
        lastTrans := (kept.map Prod.fst).getLastD driver.firstTrans
        heap := (driver.heap.write ((kept.map Prod.fst).getLastD driver.firstTrans)
          ⟨lastKept, none⟩).freeAll ((next :: dropped).map Prod.fst) } := by
      simp only [deleteOld, lastRead, firstRead, search, bind, Except.bind, if_pos beyond,
        List.head?_cons, Option.map_some, TransHeap.read_some found, freed]
    have whole : driver.heap.Chain (some driver.firstTrans) (before ++
        ((kept.map Prod.fst).getLastD driver.firstTrans, lastKept) :: ((next :: dropped) ++ []))
        none := by simpa using chain
    refine ⟨_, result, ⟨?_, ?_, ?_⟩, TransHeap.freeAll_fresh _⟩
    · rw [keptEnd]
      exact whole.remove
    · rw [keptEnd, List.map_append]
      exact List.getLast?_concat
    · exact TransHeap.unused_removed holds.unused found

theorem deleteOld_spec (holds : driver.Holds first pending) (ascending : Ascending pending) (assignTime : Int) :
    ∃ driver', driver.deleteOld assignTime = .ok driver' ∧
      driver'.Holds first (pending.filter fun e => e.2.time < assignTime) ∧ driver'.heap.fresh = driver.heap.fresh := by
  rw [ascending.split assignTime] at holds
  exact deleteOld_cut holds (by simp) (by simp)

/-- A positive pulse rejection limit keeps the transactions before the rejection window and, of
those in it, the run of equal ones immediately before the new transaction. -/
theorem rejectOld_spec (mode : ModeType) {old : List TransEntry} {added : TransEntry} {limit : Int}
    (holds : driver.Holds first (old ++ [added])) (ascending : Ascending old) (after : limit ≤ added.2.time) :
    ∃ driver', driver.rejectOld mode added.1 added.2.kind limit = .ok driver' ∧
      driver'.Holds first (old.filter (fun e => e.2.time < limit) ++ ((old.filter fun e => limit ≤ e.2.time).rtakeWhile
          fun e => !e.2.kind.differs mode added.2.kind) ++ [added]) := by
  have split := ascending.split limit
  have before : ∀ e ∈ old.filter (fun e => e.2.time < limit), e.2.time < limit := by simp
  have window : ∀ e ∈ old.filter (fun e => limit ≤ e.2.time), limit ≤ e.2.time := by simp
  generalize old.filter (fun e => e.2.time < limit) = early at *
  generalize old.filter (fun e => limit ≤ e.2.time) = late at *
  subst split
  rw [List.append_assoc] at holds
  have fits := holds.chain.length_le holds.unused
  simp only [List.length_cons, List.length_append] at fits
  have start := holds.firstTrans
  have whole : driver.heap.Chain (some driver.firstTrans)
      ((driver.firstTrans, first.2) :: (early ++ (late ++ [added]))) none := by
    have chain := holds.chain
    rw [show first = (driver.firstTrans, first.2) from Prod.ext start.symm rfl] at chain
    exact chain
  have search : driver.heap.findWindow limit (driver.heap.fresh + 1) driver.firstTrans =
      .ok ((early.map Prod.fst).getLastD driver.firstTrans, (late ++ [added]).head?.map Prod.fst) := by
    refine TransHeap.findWindow_eq whole before (fun e inside => ?_) (by simp) (by omega)
    rcases List.mem_append.mp inside with inside | inside
    · exact window e inside
    · rw [List.mem_singleton.mp inside]
      exact after
  obtain ⟨front, lastKept, keptEnd⟩ := holds.keptEnd
  have chain : driver.heap.Chain (some driver.firstTrans) (front ++
      ((early.map Prod.fst).getLastD driver.firstTrans, lastKept) :: ([] ++ (late ++ [added])))
      none := by
    have chain := holds.chain
    rw [← List.cons_append, keptEnd, List.append_assoc] at chain
    exact chain
  have enough : late.length < driver.heap.fresh + 1 := by omega
  obtain ⟨heap, result, fresh, unused, final⟩ := TransHeap.scanWindow_spec mode chain holds.unused (by simp) enough
  refine ⟨{ driver with heap }, ?_, ?_, ?_, fun p above => unused p (fresh ▸ above)⟩
  · simp only [rejectOld, search, result, bind, Except.bind]
  · rw [List.append_assoc, ← List.cons_append, keptEnd, List.append_assoc]
    exact final
  · have last := holds.last
    simp only [← List.append_assoc, ← List.cons_append, List.map_append, List.map_cons,
      List.map_nil, List.getLast?_concat] at last ⊢
    exact last

/-- The entries an assignment leaves before its first new transaction: those of the old ones
before the rejection window, and the run of equal ones at the end of the window. -/
def kept (mode : ModeType) (kind : TransactionKind) (limit : Int) (old : List TransEntry) :
    List TransEntry :=
  old.filter (fun e => e.2.time < limit) ++
    (old.filter fun e => limit ≤ e.2.time).rtakeWhile fun e => !e.2.kind.differs mode kind

/-- The first element of a signal assignment: the old transactions at or after the assignment
time go, the new one is put at the end, and with a pulse rejection limit so do the transactions
of the rejection window but the run of equal ones. -/
theorem startAssign_spec (mode : ModeType) (kind : TransactionKind) {reject after : Int}
    (holds : driver.Holds first pending)
    (ascending : Ascending pending) (positive : 0 ≤ reject) (bounded : reject ≤ after)
    (exact : StdTime.sub assignTime reject = assignTime - reject) :
    ∃ driver', driver.startAssign mode assignTime reject after kind = .ok driver' ∧ driver'.Holds first
        (kept mode kind (assignTime - reject) (pending.filter fun e => e.2.time < assignTime) ++
          [(driver.heap.fresh, ⟨kind, assignTime⟩)]) := by
  obtain ⟨deleted, resultDelete, holdsDeleted, fresh⟩ := deleteOld_spec (holds.new ⟨kind, 0⟩) ascending assignTime
  replace fresh : deleted.heap.fresh = driver.heap.fresh + 1 := fresh
  have apart : ∀ e ∈ first :: pending.filter (fun e => e.2.time < assignTime),
      e.1 ≠ driver.heap.fresh := fun e inside =>
    Nat.ne_of_lt (holds.below ((List.filter_sublist.cons_cons first).subset inside))
  have holdsTimed := holdsDeleted.write ⟨⟨kind, assignTime⟩, none⟩ apart (by rw [fresh]; exact Nat.lt_succ_self _)
  obtain ⟨appended, resultAppend, holdsAppended, -⟩ :=
    append_spec holdsTimed apart (TransHeap.write_cell ⟨⟨kind, assignTime⟩, none⟩)
  have later : Ascending (pending.filter fun e => e.2.time < assignTime) := ascending.filter _
  by_cases rejects : 0 < reject
  · have inWindow : assignTime - reject ≤ assignTime := by omega
    obtain ⟨final, resultReject, holdsFinal⟩ := rejectOld_spec mode holdsAppended later inWindow
    refine ⟨final, ?_, holdsFinal⟩
    simp only [startAssign, resultDelete, bind, Except.bind, resultAppend, if_pos rejects,
      if_neg (not_lt.mpr bounded), exact]
    exact resultReject
  obtain rfl : reject = 0 := by omega
  refine ⟨appended, ?_, ?_⟩
  · simp only [startAssign, resultDelete, bind, Except.bind, resultAppend]
    simp
  have window : (pending.filter fun e => e.2.time < assignTime).filter
      (fun e => assignTime - 0 ≤ e.2.time) = [] :=
    List.filter_eq_nil_iff.mpr fun e inside => by simpa using (List.mem_filter.mp inside).2
  have all : (pending.filter fun e => e.2.time < assignTime).filter
      (fun e => e.2.time < assignTime - 0) = pending.filter fun e => e.2.time < assignTime :=
    List.filter_eq_self.mpr fun e inside => by simpa using (List.mem_filter.mp inside).2
  rw [kept, window, all]
  simpa using holdsAppended

theorem nextAssign_spec {now after : Int} (kind : TransactionKind) (holds : driver.Holds first pending)
    (later : ∀ e ∈ (first :: pending).getLast?, e.2.time < StdTime.add now after) :
    ∃ driver', driver.nextAssign now after kind = .ok driver' ∧ driver'.Holds first
        (pending ++ [(driver.heap.fresh, ⟨kind, StdTime.add now after⟩)]) := by
  have holdsNew := holds.new ⟨kind, StdTime.add now after⟩
  obtain ⟨front, lastOld, split⟩ := holdsNew.atEnd
  have lastRead := TransHeap.read_some (holdsNew.lastCell split)
  have ordered : ¬StdTime.add now after ≤ lastOld.time :=
    not_le.mpr (later (driver.lastTrans, lastOld) (by rw [split]; simp))
  obtain ⟨appended, result, holdsAppended, -⟩ := append_spec holdsNew
    (fun e inside => Nat.ne_of_lt (holds.below inside))
    (TransHeap.new_cell ⟨kind, StdTime.add now after⟩)
  refine ⟨appended, ?_, holdsAppended⟩
  simp only [nextAssign, lastRead, bind, Except.bind, if_neg ordered]
  exact result

theorem consume_spec {next : TransEntry} (holds : driver.Holds first (next :: pending)) :
    ∃ driver', driver.consume = .ok (next.2.kind, driver') ∧ driver'.Holds next pending ∧
      driver'.assigned = driver.assigned ∧ driver'.proc = driver.proc := by
  obtain ⟨r, found⟩ := holds.chain.cell_of_mem (List.mem_cons_of_mem first List.mem_cons_self)
  have distinct := holds.chain.nodup
  rw [List.map_cons, List.nodup_cons, ← holds.firstTrans] at distinct
  have result : driver.consume = .ok (next.2.kind, { driver with
      firstTrans := next.1, heap := driver.heap.free driver.firstTrans }) := by
    simp only [consume, TransHeap.read_some holds.firstCell, List.head?_cons, Option.map_some,
      TransHeap.read_some found, bind, Except.bind]
  refine ⟨_, result, ⟨?_, ?_, fun p above => ?_⟩, rfl, rfl⟩
  · exact holds.rest.congr fun e inside => update_of_ne
      (ne_of_mem_of_not_mem (List.mem_map_of_mem inside) distinct.1) _ _
  · have last := holds.last
    rwa [List.map_cons, List.getLast?_cons_of_ne_nil (by simp)] at last
  · by_cases same : p = driver.firstTrans
    · exact same ▸ update_self _ _ _
    · exact (update_of_ne same _ _).trans (holds.unused p above)

theorem update_nil (now : Int) (holds : driver.Holds first []) : driver.update now = .ok (.idle, driver) := by
  simp only [update, TransHeap.read_some holds.firstCell, List.head?_nil, Option.map_none, bind, Except.bind]

theorem update_cons (now : Int) {next : TransEntry} (holds : driver.Holds first (next :: pending))
    (plain : next.2.kind.isDirect = false) : driver.update now =
      if next.2.time = now then do
        let (kind, driver') ← driver.consume
        .ok (.due kind, driver')
      else .ok (.idle, driver) := by
  obtain ⟨r, found⟩ := holds.chain.cell_of_mem (List.mem_cons_of_mem first List.mem_cons_self)
  simp only [update, TransHeap.read_some holds.firstCell, List.head?_cons, Option.map_some,
    TransHeap.read_some found, bind, Except.bind, plain, Bool.false_eq_true, if_false]

theorem nextAssigns_spec {now : Int} {front : List TransEntry} {lastDelay : Int} {last : TransEntry}
    {rest : List (Int × TransactionKind)} (holds : driver.Holds first (front ++ [last]))
    (positive : 0 ≤ now) (lastTime : last.2.time = now + lastDelay) (delayed : 0 ≤ lastDelay)
    (ascending : (lastDelay :: rest.map Prod.fst).Pairwise (· < ·))
    (fits : ∀ element ∈ rest, now + element.1 ≤ StdTime.last) :
    ∃ driver' added, rest.foldlM (fun driver element => driver.nextAssign now element.1 element.2)
        driver = Except.ok driver' ∧ driver'.Holds first (front ++ last :: added) ∧
      added.map Prod.snd = rest.map fun element => ⟨element.2, now + element.1⟩ := by
  induction rest generalizing driver front last lastDelay with
  | nil => exact ⟨driver, [], rfl, holds, rfl⟩
  | cons element rest ih =>
    simp only [List.map_cons, List.pairwise_cons, List.mem_cons, forall_eq_or_imp] at ascending fits
    have sum : StdTime.add now element.1 = now + element.1 := StdTime.add_exact positive (by omega) fits.1
    have later : ∀ e ∈ (first :: (front ++ [last])).getLast?,
        e.2.time < StdTime.add now element.1 := by
      rw [← List.cons_append, List.getLast?_concat]
      simp only [Option.mem_def, Option.some.injEq, forall_eq']
      omega
    obtain ⟨next, result, holdsNext⟩ := nextAssign_spec element.2 holds later
    rw [sum] at holdsNext
    obtain ⟨final, added, resultRest, holdsFinal, contents⟩ := ih holdsNext rfl (by omega)
      (List.pairwise_cons.mpr ascending.2) fits.2
    refine ⟨final, (driver.heap.fresh, ⟨element.2, now + element.1⟩) :: added, ?_, ?_, ?_⟩
    · rw [List.foldlM_cons, result]
      exact resultRest
    · simpa using holdsFinal
    · rw [List.map_cons, contents, List.map_cons]

end Driver

end Ghdl.Grt
