import Ghdl.Linked.Append
import Ghdl.Grt.Callbacks

/-!
# The lists of callbacks

The lists of callbacks and of recycled handles are threaded through the links of the cells, so that each cell that has
been allocated is on exactly one of them. The procedures change them like lists of cells.
-/

namespace Ghdl.Callbacks

open Linked Function

/-- The lists. -/
inductive Queue where
  | recycled
  | timed
  | list (k : Nat)
deriving DecidableEq, Repr

/-- The first cell of a list. -/
def State.head (s : State) : Queue → Option Nat
  | .recycled => s.recycledHandles
  | .timed => s.first
  | .list k => (s.lists k).first

/-- The links of the cells that have been allocated. -/
def links (s : State) : Nat → Option (Option Nat) := fun c => if c < s.allocated then some (s.cells c).next else none

/-- A cell but for its link. -/
def Cell.data (c : Cell) : Int × Mode × Option Nat := (c.t, c.mode, c.proc)

/-- The lists of cells that are threaded through the links. -/
abbrev Threads (next : Nat → Option (Option Nat)) (cells : Queue → List Nat) : Prop :=
  Family next (fun q => (cells q).head?) cells

/-- The lists have these cells. -/
structure Shape (s : State) (cells : Queue → List Nat) : Prop where
  threads : Threads (links s) cells
  heads : ∀ q, s.head q = (cells q).head?
  lasts : ∀ k, (s.lists k).last = (cells (.list k)).getLast?

variable {s s' : State} {cells cells' : Queue → List Nat} {c h k : Nat} {q : Queue} {l m : List Nat} {n : Option Nat}

/-- The heads depend only on these fields. -/
theorem State.head_congr (recycled : s'.recycledHandles = s.recycledHandles) (first : s'.first = s.first)
    (lists : s'.lists = s.lists) (q : Queue) : s'.head q = s.head q := by
  cases q with
  | recycled => exact recycled
  | timed => exact first
  | list k => exact congrArg (fun lists => (lists k).first) lists

theorem links_setCell (low : h < s.allocated) (cell : Cell) :
    links (s.setCell h cell) = update (links s) h (some cell.next) := by
  funext a
  by_cases same : a = h
  · subst same
    rw [update_self]
    show (if a < s.allocated then some (update s.cells a cell a).next else none) = _
    rw [if_pos low, update_self]
  · rw [update_of_ne same]
    show (if a < s.allocated then some (update s.cells h cell a).next else none) = _
    rw [update_of_ne same]
    rfl

theorem links_setNext (low : h < s.allocated) (n : Option Nat) : links (s.setNext h n) = update (links s) h (some n) :=
  links_setCell low _

theorem data_setNext (c : Nat) : ((s.setNext h n).cells c).data = (s.cells c).data := by
  show (update s.cells h { s.cells h with next := n } c).data = _
  by_cases same : c = h
  · rw [same, update_self]
    rfl
  · rw [update_of_ne same]

theorem data_freeHandle (c : Nat) : ((s.freeHandle h).cells c).data = (s.cells c).data := data_setNext c

theorem Shape.bound (shape : Shape s cells) (inside : c ∈ cells q) : c < s.allocated := by
  have linked := shape.threads.linked_iff.mpr ⟨q, inside⟩
  by_contra outside
  exact linked (if_neg outside)

theorem Shape.next (shape : Shape s cells) (split : cells q = l ++ c :: m) : (s.cells c).next = m.head? := by
  have low : c < s.allocated := shape.bound (by rw [split]; simp)
  have path := shape.threads.path q
  rw [split] at path
  have link := path.link_eq
  rw [links, if_pos low] at link
  exact Option.some.inj link

theorem freeHandle_spec (low : h < s.allocated) (threads : Threads (update (links s) h none) cells)
    (head : s.recycledHandles = (cells .recycled).head?) :
    Threads (links (s.freeHandle h)) (update cells .recycled (h :: cells .recycled)) := by
  have unlinked : update (links s) h none h = none := update_self _ _ _
  have pushed := (threads.push unlinked .recycled).canonical
  rw [Function.update_idem, ← head] at pushed
  have same : links (s.freeHandle h) = update (links s) h (some s.recycledHandles) := links_setNext low _
  rw [same]
  exact pushed

theorem allocateHandle_spec (shape : Shape s cells) : ∃ s' h rest, s.allocateHandle = (s', h) ∧ s'.cells = s.cells ∧
    s'.first = s.first ∧ s'.firstTimeout = s.firstTimeout ∧ s'.lists = s.lists ∧ h < s'.allocated ∧
    (∀ q, q ≠ .recycled → h ∉ cells q) ∧ s'.recycledHandles = rest.head? ∧
    Threads (update (links s') h none) (update cells .recycled rest) := by
  have head := shape.heads .recycled
  unfold State.allocateHandle
  cases isCells : cells .recycled with
  | nil =>
    rw [isCells] at head
    have none' : s.recycledHandles = none := head
    have fresh : links s s.allocated = none := if_neg (Nat.lt_irrefl _)
    have same : update (links { s with allocated := s.allocated + 1 }) s.allocated none = links s := by
      funext a
      by_cases isNew : a = s.allocated
      · rw [isNew, update_self, fresh]
      · rw [update_of_ne isNew]
        show (if a < s.allocated + 1 then some (s.cells a).next else none) = _
        rw [links]
        exact if_congr (by omega) rfl rfl
    rw [none']
    refine ⟨{ s with allocated := s.allocated + 1 }, s.allocated, [], by rw [none'], rfl, rfl, rfl, rfl, Nat.lt_succ_self _,
      fun q _ => shape.threads.not_mem fresh q, none', ?_⟩
    rw [same, ← isCells, Function.update_eq_self]
    exact shape.threads
  | cons h rest =>
    rw [isCells] at head
    have isHead : s.recycledHandles = some h := head
    have inside : h ∈ cells .recycled := by rw [isCells]; exact List.mem_cons_self
    obtain ⟨r, link, popped⟩ := shape.threads.pop isCells
    have next' : (s.cells h).next = rest.head? := shape.next (l := []) isCells
    rw [isHead]
    exact ⟨{ s with recycledHandles := (s.cells h).next }, h, rest, rfl, rfl, rfl, rfl, rfl, shape.bound inside,
      fun q other => shape.threads.disjoint .recycled q (Ne.symm other) h inside, next', popped.canonical⟩

/-- The handle that is inserted: it has the new contents, and the other cells have theirs. -/
structure Inserted (s s' : State) (cells : Queue → List Nat) (h : Nat) (data : Int × Mode × Option Nat) : Prop where
  fresh : ∀ q, q ≠ .recycled → h ∉ cells q
  mine : (s'.cells h).data = data
  others : ∀ c, c ≠ h → (s'.cells c).data = (s.cells c).data

theorem insertPoint_spec {t : Int} {xs : List Nat} (next' : ∀ l c m, xs = l ++ c :: m → (s.cells c).next = m.head?) :
    ∀ (m before : List Nat) (fuel : Nat), xs = before ++ m → m.length < fuel →
    ∃ front back, s.insertPoint t fuel before.getLast? m.head? = .ok ((before ++ front).getLast?, back.head?) ∧ m = front ++ back ∧
      (∀ c ∈ front, (s.cells c).t ≤ t) ∧ ∀ c ∈ back.head?, t < (s.cells c).t := by
  intro m
  induction m with
  | nil =>
    intro before fuel split enough
    cases fuel with
    | zero => exact absurd enough (Nat.not_lt_zero _)
    | succ fuel =>
      refine ⟨[], [], ?_, rfl, fun _ inside => absurd inside List.not_mem_nil, fun _ inside => absurd inside nofun⟩
      rw [List.append_nil]
      rfl
  | cons c m ih =>
    intro before fuel split enough
    cases fuel with
    | zero => exact absurd enough (Nat.not_lt_zero _)
    | succ fuel =>
      rw [List.head?_cons, State.insertPoint]
      by_cases after : t < (s.cells c).t
      · rw [if_pos after]
        refine ⟨[], c :: m, by rw [List.append_nil]; rfl, rfl, fun _ inside => absurd inside List.not_mem_nil, fun d isD => ?_⟩
        rw [← Option.some.inj isD]
        exact after
      rw [if_neg after, next' _ _ _ split]
      obtain ⟨front, back, run, isM, low, high⟩ := ih (before ++ [c]) fuel (by rw [split]; simp) (Nat.lt_of_succ_lt_succ enough)
      rw [List.getLast?_concat, List.append_assoc] at run
      refine ⟨c :: front, back, run, by rw [isM]; rfl, fun d inside => ?_, high⟩
      rcases List.mem_cons.mp inside with rfl | inside
      · exact not_lt.mp after
      · exact low d inside

theorem Shape.length_le (shape : Shape s cells) (q : Queue) : (cells q).length ≤ s.allocated :=
  (shape.threads.path q).length_le fun _ inside => shape.bound inside

theorem timed_ne_recycled : Queue.timed ≠ .recycled := nofun

theorem list_ne_recycled (k : Nat) : Queue.list k ≠ .recycled := nofun

theorem list_ne_timed (k : Nat) : Queue.list k ≠ .timed := nofun

section

variable (shape : Shape s cells)
include shape

theorem newCell_spec (cell : Cell) : ∃ s₁ h s₂ rest, s.allocateHandle = (s₁, h) ∧
    s₁.setCell h cell = s₂ ∧ s₂.cells h = cell ∧ (∀ c, c ≠ h → s₂.cells c = s.cells c) ∧
    s₂.first = s.first ∧ s₂.firstTimeout = s.firstTimeout ∧ s₂.lists = s.lists ∧ h < s₂.allocated ∧ s.allocated ≤ s₂.allocated ∧
    (∀ q, q ≠ .recycled → h ∉ cells q) ∧ s₂.recycledHandles = rest.head? ∧
    Threads (update (links s₂) h none) (update cells .recycled rest) := by
  obtain ⟨s₁, h, rest, run, sameCells, first, timeout, lists, low, fresh, recycled, threads⟩ := allocateHandle_spec shape
  have grown : s.allocated ≤ s₁.allocated := by
    have state := congrArg (fun result => result.1.allocated) run
    dsimp only at state
    rw [← state]
    unfold State.allocateHandle
    cases s.recycledHandles with
    | none => exact Nat.le_succ _
    | some res => exact le_rfl
  refine ⟨s₁, h, s₁.setCell h cell, rest, run, rfl, update_self _ _ _, fun c other => ?_, first, timeout, lists, low,
    grown, fresh, recycled, ?_⟩
  · rw [← sameCells]
    exact update_of_ne other _ _
  · rw [links_setCell low, Function.update_idem]
    exact threads

theorem registerCallbackAt_spec (sorted : (cells .timed).Pairwise fun a b => (s.cells a).t ≤ (s.cells b).t)
    (t : Int) (proc : Nat) : ∃ s' h l m cells', s.registerCallbackAt t proc = .ok (s', h) ∧ cells .timed = l ++ m ∧
      (∀ c ∈ l, (s.cells c).t ≤ t) ∧ (∀ c ∈ m, t < (s.cells c).t) ∧ Inserted s s' cells h (t, .timed, some proc) ∧
      Shape s' cells' ∧ cells' .timed = l ++ h :: m ∧ (∀ k, cells' (.list k) = cells (.list k)) ∧
      s'.firstTimeout = if l = [] then t else s.firstTimeout := by
  obtain ⟨s₁, h, s₂, rest, run, isS₂, mine, others, first, timeout, lists, low, grown, fresh, recycled, threads⟩ :=
    newCell_spec shape ⟨t, .timed, some proc, none⟩
  have distinct : ∀ {c}, c ∈ cells .timed → c ≠ h := fun inside same => fresh _ timed_ne_recycled (same ▸ inside)
  have link : ∀ l c m, cells .timed = l ++ c :: m → (s₂.cells c).next = m.head? := fun l c m split => by
    rw [others c (distinct (by rw [split]; simp))]
    exact shape.next split
  -- The list is passed up to the first callback that is after T.
  have count := shape.length_le .timed
  obtain ⟨l, m, point, split, before, after⟩ := insertPoint_spec (t := t) link (cells .timed) [] (s₂.allocated + 1) rfl (by omega)
  have before' : ∀ c ∈ l, (s.cells c).t ≤ t := fun c inside => by
    have old := before c inside
    rwa [others c (distinct (by rw [split]; simp [inside]))] at old
  have after' : ∀ c ∈ m, t < (s.cells c).t := by
    intro c inside
    cases m with
    | nil => cases inside
    | cons d m =>
      have next' := after d rfl
      rw [others d (distinct (by rw [split]; simp))] at next'
      rw [split, List.pairwise_append] at sorted
      rcases List.mem_cons.mp inside with rfl | inside
      · exact next'
      · exact lt_of_lt_of_le next' ((List.pairwise_cons.mp sorted.2.1).1 c inside)
  have isTimed : update cells .recycled rest .timed = l ++ m := (update_of_ne timed_ne_recycled _ _).trans split
  have free : update (links s₂) h none h = none := update_self _ _ _
  obtain ⟨cells', isNew⟩ : ∃ cells', cells' = update (update cells .recycled rest) .timed (l ++ h :: m) := ⟨_, rfl⟩
  have newTimed : cells' .timed = l ++ h :: m := by rw [isNew, update_self]
  have newLists : ∀ k, cells' (.list k) = cells (.list k) := fun k => by
    rw [isNew, update_of_ne (list_ne_timed k), update_of_ne (list_ne_recycled k)]
  have newRecycled : cells' .recycled = rest := by
    rw [isNew, update_of_ne timed_ne_recycled.symm, update_self]
  have dataMine : (s₂.cells h).data = (t, .timed, some proc) := by rw [mine]; rfl
  have dataOthers : ∀ c, c ≠ h → (s₂.cells c).data = (s.cells c).data := fun c other => congrArg Cell.data (others c other)
  have lasts : ∀ k, (s₂.lists k).last = (cells' (.list k)).getLast? := fun k => by rw [lists, newLists, shape.lasts]
  have listHeads : ∀ k, (s₂.lists k).first = (cells' (.list k)).head? := fun k => by
    rw [lists, newLists]
    exact shape.heads (.list k)
  have head : s₂.first = (cells .timed).head? := first.trans (shape.heads .timed)
  rw [List.getLast?_nil, List.nil_append] at point
  unfold State.registerCallbackAt
  rw [run]
  dsimp only
  rw [isS₂, head, point]
  dsimp only [bind, Except.bind]
  rcases List.eq_nil_or_concat l with isL | ⟨l', b, isL⟩
  · -- It is the first one.
    rw [isL]
    rw [isL, List.nil_append] at isTimed newTimed split
    refine ⟨_, h, [], m, cells', rfl, split, fun _ inside => absurd inside List.not_mem_nil, after', ⟨fresh, (data_setNext h).trans dataMine,
      fun c other => (data_setNext c).trans (dataOthers c other)⟩, ⟨?_, fun q => ?_, lasts⟩, newTimed, newLists, (if_pos rfl).symm⟩
    · have pushed := (threads.push free .timed).canonical
      rw [Function.update_idem, isTimed] at pushed
      have same : links (s₂.setNext h (cells .timed).head?) = update (links s₂) h (some m.head?) := by
        rw [links_setNext low, split]
      have isCells : cells' = update (update cells .recycled rest) .timed (h :: m) := by rw [isNew, isL]; rfl
      rw [isCells]
      exact same ▸ pushed
    · cases q with
      | recycled => exact recycled.trans (by rw [newRecycled])
      | timed => rw [newTimed]; rfl
      | list k => exact listHeads k
  · -- It is behind another one.
    rw [List.concat_eq_append] at isL
    have isLast : l.getLast? = some b := by rw [isL, List.getLast?_concat]
    have split' : cells .timed = l' ++ b :: m := by rw [split, isL, List.append_assoc]; rfl
    have inside : b ∈ cells .timed := by rw [split']; simp
    have lowB : b < s₂.allocated := lt_of_lt_of_le (shape.bound inside) grown
    rw [isLast]
    dsimp only
    rw [if_pos (link l' b m split').symm]
    refine ⟨_, h, l, m, cells', rfl, split, before', after', ⟨fresh, ?_, fun c other => ?_⟩, ⟨?_, fun q => ?_, lasts⟩, newTimed,
      newLists, timeout.trans (if_neg (by rw [isL]; simp)).symm⟩
    · exact (data_setNext h).trans ((data_setNext h).trans dataMine)
    · exact (data_setNext c).trans ((data_setNext c).trans (dataOthers c other))
    · have inserted := (threads.insert free ((update_of_ne timed_ne_recycled _ _).trans split')).canonical
      rw [Function.update_idem] at inserted
      have same : links ((s₂.setNext h m.head?).setNext b (some h)) =
          update (update (links s₂) h (some m.head?)) b (some (some h)) :=
        (links_setNext (s := s₂.setNext h m.head?) lowB _).trans (by rw [links_setNext low])
      have isCells : cells' = update (update cells .recycled rest) .timed (l' ++ b :: h :: m) := by
        rw [isNew, isL, List.append_assoc]
        rfl
      rw [isCells, same]
      exact inserted
    · cases q with
      | recycled => exact recycled.trans (by rw [newRecycled])
      | timed =>
        refine head.trans ?_
        rw [newTimed, split', isL]
        cases l' <;> rfl
      | list k => exact listHeads k

theorem registerCallback_spec (k : Nat) (mode : Mode) (proc : Nat) :
    ∃ s' h cells', s.registerCallback k mode proc = .ok (s', h) ∧ Inserted s s' cells h (0, mode, some proc) ∧ Shape s' cells' ∧
      cells' .timed = cells .timed ∧ cells' (.list k) = cells (.list k) ++ [h] ∧
      (∀ k', k' ≠ k → cells' (.list k') = cells (.list k')) ∧ s'.firstTimeout = s.firstTimeout := by
  obtain ⟨s₁, h, s₂, rest, run, isS₂, mine, others, first, timeout, lists, low, grown, fresh, recycled, threads⟩ :=
    newCell_spec shape ⟨0, mode, some proc, none⟩
  have free : update (links s₂) h none h = none := update_self _ _ _
  have isList : update cells .recycled rest (.list k) = cells (.list k) := update_of_ne (list_ne_recycled k) _ _
  have dataMine : (s₂.cells h).data = (0, mode, some proc) := by rw [mine]; rfl
  have dataOthers : ∀ c, c ≠ h → (s₂.cells c).data = (s.cells c).data := fun c other => congrArg Cell.data (others c other)
  obtain ⟨cells', isNew⟩ : ∃ cells', cells' =
    update (update cells .recycled rest) (.list k) (cells (.list k) ++ [h]) := ⟨_, rfl⟩
  have newTimed : cells' .timed = cells .timed := by
    rw [isNew, update_of_ne (list_ne_timed k).symm, update_of_ne timed_ne_recycled]
  have newList : cells' (.list k) = cells (.list k) ++ [h] := by rw [isNew, update_self]
  have newOther : ∀ k', k' ≠ k → cells' (.list k') = cells (.list k') := fun k' other => by
    rw [isNew, update_of_ne fun same => other (Queue.list.inj same), update_of_ne (list_ne_recycled k')]
  have newRecycled : cells' .recycled = rest := by
    rw [isNew, update_of_ne (list_ne_recycled k).symm, update_self]
  have heads := shape.heads (.list k)
  have isHead : (s₂.lists k).first = (cells (.list k)).head? := by rw [lists]; exact heads
  have isLast : (s₂.lists k).last = (cells (.list k)).getLast? := by rw [lists, shape.lasts]
  -- The other lists and heads are kept.
  have finish : ∀ s' l, s'.first = s₂.first → s'.recycledHandles = s₂.recycledHandles → s'.lists = update s₂.lists k l →
      l.first = (cells' (.list k)).head? → l.last = some h → Threads (links s') cells' → Shape s' cells' := by
    intro s' l first' recycled' lists' head' last' threads'
    refine ⟨threads', fun q => ?_, fun k' => ?_⟩
    · cases q with
      | recycled => exact (recycled'.trans recycled).trans (by rw [newRecycled])
      | timed => exact (first'.trans first).trans (by rw [newTimed]; exact shape.heads .timed)
      | list k' =>
        show (s'.lists k').first = _
        rw [lists']
        by_cases same : k' = k
        · rw [same, update_self, head']
        · rw [update_of_ne same, lists, newOther k' same]
          exact shape.heads (.list k')
    · rw [lists']
      by_cases same : k' = k
      · rw [same, update_self, last', newList, List.getLast?_concat]
      · rw [update_of_ne same, lists, newOther k' same, shape.lasts]
  unfold State.registerCallback
  rw [run]
  dsimp only
  rw [isS₂]
  unfold State.append
  rcases List.eq_nil_or_concat (cells (.list k)) with isNil | ⟨l, b, isSnoc⟩
  · rw [isNil] at isHead isLast
    rw [isHead, isLast]
    refine ⟨_, h, cells', rfl, ⟨fresh, dataMine, dataOthers⟩, finish _ ⟨some h, some h⟩ rfl rfl rfl ?_ rfl ?_, newTimed, newList, newOther,
      timeout⟩
    · rw [newList, isNil]
      rfl
    have pushed := (threads.push free (.list k)).canonical
    rw [Function.update_idem, isList, isNil] at pushed
    rw [isNew, isNil]
    have same : links (s₂.setList k ⟨some h, some h⟩) = update (links s₂) h (some none) := by
      have unchanged : update (links s₂) h (some (s₂.cells h).next) = links s₂ := by
        rw [← links_setNext low]
        show links (s₂.setCell h (s₂.cells h)) = links s₂
        unfold State.setCell
        rw [Function.update_eq_self]
      rw [mine] at unchanged
      exact unchanged.symm
    rw [same]
    exact pushed
  · rw [List.concat_eq_append] at isSnoc
    have inside : b ∈ cells (.list k) := by rw [isSnoc]; simp
    have lowB : b < s₂.allocated := lt_of_lt_of_le (shape.bound inside) grown
    have some' : ∃ a, (cells (.list k)).head? = some a := by
      cases isCells : cells (.list k) with
      | nil => rw [isCells] at inside; cases inside
      | cons a l => exact ⟨a, rfl⟩
    obtain ⟨a, isA⟩ := some'
    rw [isA] at isHead
    rw [isSnoc, List.getLast?_concat] at isLast
    rw [isHead, isLast]
    refine ⟨_, h, cells', rfl, ⟨fresh, (data_setNext h).trans dataMine, fun c other => (data_setNext c).trans (dataOthers c other)⟩,
      finish _ ⟨some a, some h⟩ rfl rfl rfl ?_ rfl ?_, newTimed, newList, newOther, timeout⟩
    · rw [newList, List.head?_append, isA]
      rfl
    have appended := (threads.append free (isList.trans isSnoc)).canonical
    have unchanged : update (links s₂) h (some none) = links s₂ := by
      have link : links s₂ h = some none := by
        rw [links, if_pos low, mine]
      rw [← link, Function.update_eq_self]
    rw [Function.update_idem, unchanged, ← isSnoc] at appended
    rw [isNew]
    have same : links ((s₂.setNext b (some h)).setList k ⟨some a, some h⟩) = update (links s₂) b (some (some h)) :=
      links_setNext lowB _
    rw [same]
    exact appended

theorem nextTimeCallback_spec (now : Int) :
    ((∀ c ∈ (cells .timed).head?, now < (s.cells c).t) ∧ ∃ s', s.nextTimeCallback now = (s', none) ∧ s'.cells = s.cells ∧
        Shape s' cells ∧ s'.firstTimeout = ((cells .timed).head?.map fun c => (s.cells c).t).getD stdTimeLast) ∨
      ∃ c m s', cells .timed = c :: m ∧ (s.cells c).t ≤ now ∧ s.nextTimeCallback now = (s', some (s.cells c).proc) ∧
        (∀ d, (s'.cells d).data = (s.cells d).data) ∧ ∃ cells', Shape s' cells' ∧ cells' .timed = m ∧
        ∀ k, cells' (.list k) = cells (.list k) := by
  have head : s.first = (cells .timed).head? := shape.heads .timed
  unfold State.nextTimeCallback
  rw [head]
  cases isCells : cells .timed with
  | nil =>
    refine Or.inl ⟨fun c inside => absurd inside nofun, _, rfl, rfl, ⟨shape.threads, fun q => ?_, shape.lasts⟩, rfl⟩
    cases q with
    | recycled => exact shape.heads .recycled
    | timed => rw [isCells]; rfl
    | list k => exact shape.heads (.list k)
  | cons c m =>
    dsimp only [List.head?_cons]
    by_cases after : now < (s.cells c).t
    · rw [if_pos after]
      refine Or.inl ⟨fun d isD => Option.some.inj isD ▸ after, _, rfl, rfl, ⟨shape.threads, fun q => ?_, shape.lasts⟩, rfl⟩
      cases q with
      | recycled => exact shape.heads .recycled
      | timed => rw [isCells]; rfl
      | list k => exact shape.heads (.list k)
    rw [if_neg after]
    have inside : c ∈ cells .timed := by rw [isCells]; exact List.mem_cons_self
    obtain ⟨r, link, popped⟩ := shape.threads.pop isCells
    have next' : (s.cells c).next = m.head? := shape.next (l := []) isCells
    have recycled : s.recycledHandles = (update cells .timed m .recycled).head? := by
      rw [update_of_ne timed_ne_recycled.symm]
      exact shape.heads .recycled
    have freed := @freeHandle_spec { s with first := (s.cells c).next } (update cells .timed m) c (shape.bound inside)
      popped.canonical recycled
    refine Or.inr ⟨c, m, _, rfl, not_lt.mp after, rfl, data_freeHandle, _, ⟨freed, fun q => ?_, fun k => ?_⟩, ?_, fun k => ?_⟩
    · cases q with
      | recycled => rw [update_self]; rfl
      | timed =>
        rw [update_of_ne timed_ne_recycled, update_self]
        exact next'
      | list k =>
        rw [update_of_ne (list_ne_recycled k), update_of_ne (list_ne_timed k)]
        exact shape.heads (.list k)
    · rw [update_of_ne (list_ne_recycled k), update_of_ne (list_ne_timed k)]
      exact shape.lasts k
    · rw [update_of_ne timed_ne_recycled, update_self]
    · rw [update_of_ne (list_ne_recycled k), update_of_ne (list_ne_timed k)]

/-- A deleted callback gets `Nop_Callback`, and is not repeated any more. -/
theorem deleteCallback_spec (inside : h ∈ cells q) : Shape (s.deleteCallback h) cells ∧
    (∀ c, c ≠ h → ((s.deleteCallback h).cells c).data = (s.cells c).data) ∧ ((s.deleteCallback h).cells h).data =
      ((s.cells h).t, if (s.cells h).mode = .repeat_ then .oneshot else (s.cells h).mode, none) ∧
    (s.deleteCallback h).firstTimeout = s.firstTimeout := by
  have low := shape.bound inside
  refine ⟨⟨?_, fun q => (State.head_congr rfl rfl rfl q).trans (shape.heads q), shape.lasts⟩, fun c other => ?_, ?_, rfl⟩
  · have same : links (s.deleteCallback h) = links s := by
      refine (links_setCell low _).trans ?_
      have link : links s h = some (s.cells h).next := if_pos low
      dsimp only
      rw [← link, Function.update_eq_self]
    exact same ▸ shape.threads
  · show (update s.cells h _ c).data = _
    rw [update_of_ne other]
  · show (update s.cells h _ h).data = _
    rw [update_self]
    rfl

end

theorem unlink_spec {prevCell : Option Nat} (shape : Shape s cells) (split : cells (.list k) = l ++ c :: m)
    (prev : prevCell = l.getLast?) : ∃ s', s.unlink k prevCell m.head? = s' ∧
      Threads (update (links s') c none) (update cells (.list k) (l ++ m)) ∧
      (∀ d, (s'.cells d).data = (s.cells d).data) ∧ s'.allocated = s.allocated ∧ s'.recycledHandles = s.recycledHandles ∧
      s'.first = s.first ∧ s'.firstTimeout = s.firstTimeout ∧ (∀ k', k' ≠ k → s'.lists k' = s.lists k') ∧
      (s'.lists k).first = (l ++ m).head? ∧ (s'.lists k).last = (s.lists k).last := by
  unfold State.unlink
  have head := shape.heads (.list k)
  rcases List.eq_nil_or_concat l with isL | ⟨l', b, isL⟩
  · rw [isL] at prev split
    obtain ⟨r, link, popped⟩ := shape.threads.pop split
    rw [prev, isL]
    refine ⟨_, rfl, popped.canonical, fun _ => rfl, rfl, rfl, rfl, rfl, fun k' other => update_of_ne other _ _, ?_, ?_⟩
    · show (update s.lists k { s.lists k with first := m.head? } k).first = _
      rw [update_self]
      rfl
    · show (update s.lists k { s.lists k with first := m.head? } k).last = _
      rw [update_self]
  · rw [List.concat_eq_append] at isL
    rw [isL, List.getLast?_concat] at prev
    have split' : cells (.list k) = l' ++ b :: c :: m := by rw [split, isL, List.append_assoc]; rfl
    obtain ⟨r, link, unlinked⟩ := shape.threads.unlink split'
    have next' := shape.next split
    have lowC : c < s.allocated := shape.bound (by rw [split]; simp)
    have lowB : b < s.allocated := shape.bound (by rw [split']; simp)
    have isR : m.head? = r := by
      rw [links, if_pos lowC, next'] at link
      exact Option.some.inj link
    rw [prev]
    refine ⟨_, rfl, ?_, data_setNext, rfl, rfl, rfl, rfl, fun _ _ => rfl, ?_, rfl⟩
    · have same : l ++ m = l' ++ b :: m := by rw [isL, List.append_assoc]; rfl
      dsimp only
      rw [links_setNext lowB, isR, same]
      exact unlinked.canonical
    · refine head.trans ?_
      rw [split', isL]
      cases l' <;> rfl

theorem repairLast_spec {prevCell : Option Nat} : ∃ s', s.repairLast k prevCell n = s' ∧ s'.cells = s.cells ∧
    s'.allocated = s.allocated ∧ s'.recycledHandles = s.recycledHandles ∧ s'.first = s.first ∧ s'.firstTimeout = s.firstTimeout ∧
    (∀ k', k' ≠ k → s'.lists k' = s.lists k') ∧ (s'.lists k).first = (s.lists k).first ∧
    (s'.lists k).last = if n = none then prevCell else (s.lists k).last := by
  unfold State.repairLast
  by_cases isNone : n = none
  · rw [if_pos isNone, if_pos isNone]
    refine ⟨_, rfl, rfl, rfl, rfl, rfl, rfl, fun k' other => update_of_ne other _ _, ?_, ?_⟩
    · show (update s.lists k { s.lists k with last := prevCell } k).first = _
      rw [update_self]
    · show (update s.lists k { s.lists k with last := prevCell } k).last = _
      rw [update_self]
  · rw [if_neg isNone, if_neg isNone]
    exact ⟨s, rfl, rfl, rfl, rfl, rfl, rfl, fun _ _ => rfl, rfl, rfl⟩

/-- After the call, a cell that is not repeated is taken out of its list and recycled; the next one is called unless the
cell was the last one. -/
theorem afterCall_spec {loop : Loop} (shape : Shape s cells) (split : cells (.list loop.list) = l ++ loop.cell :: m)
    (prev : loop.prevCell = l.getLast?) (more : loop.last ≠ some loop.cell → m ≠ []) :
    ∃ s' cells' l', s.afterCall loop = .ok (s', if loop.last = some loop.cell then none
        else m.head?.map fun cell => { loop with cell := cell, prevCell := l'.getLast? }) ∧
      (∀ c, (s'.cells c).data = (s.cells c).data) ∧ Shape s' cells' ∧ cells' (.list loop.list) = l' ++ m ∧
      l' = (if (s.cells loop.cell).mode = .oneshot then l else l ++ [loop.cell]) ∧ cells' .timed = cells .timed ∧
      (∀ k, k ≠ loop.list → cells' (.list k) = cells (.list k)) ∧ s'.firstTimeout = s.firstTimeout := by
  have inside : loop.cell ∈ cells (.list loop.list) := by rw [split]; simp
  have low := shape.bound inside
  have next' : (s.cells loop.cell).next = m.head? := shape.next split
  -- What is returned does not depend on whether the cell is kept.
  have finish : ∀ (s' : State) (prev' : Option Nat), (if some loop.cell = loop.last then Except.ok (s', none)
      else m.head?.elim (.error CallbackError.null) fun cell => .ok (s', some { loop with cell := cell, prevCell := prev' })) =
      .ok (s', if loop.last = some loop.cell then none
        else m.head?.map fun cell => { loop with cell := cell, prevCell := prev' }) := by
    intro s' prev'
    by_cases last : loop.last = some loop.cell
    · rw [if_pos last, if_pos last.symm]
    · rw [if_neg last, if_neg (Ne.symm last)]
      cases isM : m with
      | nil => exact absurd isM (more last)
      | cons c m => rfl
  unfold State.afterCall
  dsimp only
  rw [next']
  by_cases oneshot : (s.cells loop.cell).mode = .oneshot
  · rw [if_pos oneshot]
    obtain ⟨s₁, isS₁, threads, data, allocated, recycled, first, timeout, others, head, last⟩ := unlink_spec shape split prev
    obtain ⟨s₂, isS₂, sameCells, allocated', recycled', first', timeout', others', head', last'⟩ :=
      @repairLast_spec s₁ loop.list m.head? loop.prevCell
    have sameLinks : links s₂ = links s₁ := by
      unfold links
      rw [sameCells, allocated']
    have isRecycled : s₂.recycledHandles = (update cells (.list loop.list) (l ++ m) .recycled).head? := by
      rw [recycled', recycled, update_of_ne (list_ne_recycled _).symm]
      exact shape.heads .recycled
    have freed := @freeHandle_spec s₂ (update cells (.list loop.list) (l ++ m)) loop.cell
      (by rw [allocated', allocated]; exact low) (sameLinks.symm ▸ threads) isRecycled
    obtain ⟨cells', isNew⟩ : ∃ cells', cells' = update (update cells (.list loop.list) (l ++ m)) .recycled
      (loop.cell :: update cells (.list loop.list) (l ++ m) .recycled) := ⟨_, rfl⟩
    have newList : cells' (.list loop.list) = l ++ m := by
      rw [isNew, update_of_ne (list_ne_recycled _), update_self]
    have newTimed : cells' .timed = cells .timed := by
      rw [isNew, update_of_ne timed_ne_recycled, update_of_ne (list_ne_timed _).symm]
    have newOther : ∀ k, k ≠ loop.list → cells' (.list k) = cells (.list k) := fun k other => by
      rw [isNew, update_of_ne (list_ne_recycled _), update_of_ne fun same => other (Queue.list.inj same)]
    have newHead : (cells' .recycled).head? = some loop.cell := by rw [isNew, update_self]; rfl
    rw [← isNew] at freed
    rw [isS₁, isS₂]
    refine ⟨s₂.freeHandle loop.cell, cells', l, ?_, fun c => ?_, ⟨freed, fun q => ?_, fun k => ?_⟩, newList, by rw [if_pos oneshot],
      newTimed, newOther, timeout'.trans timeout⟩
    · rw [prev]
      refine Eq.trans ?_ (finish _ _)
      cases m.head? <;> rfl
    · rw [data_freeHandle, sameCells]
      exact data c
    · cases q with
      | recycled => rw [newHead]; rfl
      | timed =>
        rw [newTimed]
        exact (first'.trans first).trans (shape.heads .timed)
      | list k =>
        show (s₂.lists k).first = _
        by_cases same : k = loop.list
        · rw [same, head', head, newList]
        · rw [others' k same, others k same, newOther k same]
          exact shape.heads (.list k)
    · show (s₂.lists k).last = _
      by_cases same : k = loop.list
      · rw [same, last', newList, last, shape.lasts, split, prev]
        cases m with
        | nil => rw [List.append_nil]; rfl
        | cons d m =>
          show (l ++ loop.cell :: d :: m).getLast? = _
          rw [List.getLast?_append, List.getLast?_append, List.getLast?_cons_cons]
      · rw [others' k same, others k same, newOther k same, shape.lasts]
  · rw [if_neg oneshot]
    refine ⟨s, cells, l ++ [loop.cell], ?_, fun _ => rfl, shape, by rw [split]; simp, by rw [if_neg oneshot], rfl, fun _ _ => rfl, rfl⟩
    rw [List.getLast?_concat]
    refine Eq.trans ?_ (finish s _)
    cases m.head? <;> rfl

end Ghdl.Callbacks
