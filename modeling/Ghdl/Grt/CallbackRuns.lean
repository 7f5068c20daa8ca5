import Ghdl.Grt.CallbackLists

/-!
# Runs of callbacks

The invariant relates the cells to the registrations: a cell on a list of callbacks is that of one registration, and a
registration that is not deleted and has to be called again has its cell on its list. The callbacks that are pending in
the call that is in progress are due, but have not been called yet.
-/

namespace Ghdl.Callbacks

open Linked Function

/-- The list of a registration. -/
def Registration.list (reg : Registration) : Queue :=
  match reg.queue with
  | none => .timed
  | some k => .list k

/-- How often the procedure has to be called. -/
def Registration.expected (reg : Registration) : Nat := if reg.mode = .repeat_ then reg.calls else min reg.calls 1

/-- The cell of a registration. -/
structure Entry (s : State) (r : Nat) (reg : Registration) (q : Queue) (c : Nat) : Prop where
  handle : reg.handle = c
  list : reg.list = q
  time : (s.cells c).t = reg.time
  live : reg.deleted = none → (s.cells c).proc = some r ∧ (s.cells c).mode = reg.mode
  dead : reg.deleted ≠ none → (s.cells c).proc = none ∧ (s.cells c).mode ≠ .repeat_

/-- The callbacks are in the order of their times, and of their registrations where these are equal. -/
def Ordered (s : State) (owner : Nat → Nat) (a b : Nat) : Prop :=
  (s.cells a).t < (s.cells b).t ∨ (s.cells a).t = (s.cells b).t ∧ owner a < owner b

/-- The cells and the registrations, when some cells are pending and one may be that of the procedure that is called. -/
structure Core (s : State) (regs : List Registration) (cells : Queue → List Nat) (owner : Nat → Nat) (pending : List Nat)
    (current : Option Nat) : Prop where
  shape : Shape s cells
  entries : ∀ q c, q ≠ .recycled → c ∈ cells q → ∃ reg, regs[owner c]? = some reg ∧ Entry s (owner c) reg q c
  waiting : ∀ r reg, regs[r]? = some reg → reg.deleted = none → (reg.mode = .repeat_ ∨ reg.runs = 0) →
    reg.handle ∈ cells reg.list ∧ owner reg.handle = r
  modes : ∀ reg ∈ regs, (reg.mode = .timed ↔ reg.queue = none)
  ordered : (cells .timed).Pairwise (Ordered s owner)
  counts : ∀ r reg, regs[r]? = some reg → reg.deleted = none →
    reg.runs + (if reg.handle ∈ pending ∧ owner reg.handle = r then 1 else 0) = reg.expected
  fresh : ∀ q c reg, q ≠ .recycled → c ∈ cells q → regs[owner c]? = some reg → reg.deleted = none → reg.mode ≠ .repeat_ →
    current ≠ some c → reg.runs = 0
  ran : ∀ c, current = some c → (∃ q, q ≠ .recycled ∧ c ∈ cells q) ∧
    ∀ reg, regs[owner c]? = some reg → reg.deleted = none → reg.runs ≠ 0
  deleted : ∀ reg ∈ regs, ∀ n, reg.deleted = some n → reg.runs = n
  listed : ∀ c ∈ pending, ∃ q, q ≠ .recycled ∧ c ∈ cells q

variable {s s' : State} {regs : List Registration} {cells cells' : Queue → List Nat} {owner : Nat → Nat}
  {pending pending' : List Nat} {current : Option Nat} {c h k r : Nat} {q : Queue} {reg : Registration}

theorem list_ne (reg : Registration) : reg.list ≠ .recycled := by
  unfold Registration.list
  cases reg.queue <;> exact nofun

theorem list_eq_timed : reg.list = .timed ↔ reg.queue = none := by
  unfold Registration.list
  cases reg.queue <;> simp

theorem list_eq_list : reg.list = .list k ↔ reg.queue = some k := by
  unfold Registration.list
  cases reg.queue <;> simp

theorem data_eq {a b : Cell} (same : a.data = b.data) : a.t = b.t ∧ a.mode = b.mode ∧ a.proc = b.proc :=
  ⟨congrArg Prod.fst same, congrArg (·.2.1) same, congrArg (·.2.2) same⟩

/-- An entry depends only on the contents of its cell. -/
theorem Entry.congr (entry : Entry s r reg q c) (same : (s'.cells c).data = (s.cells c).data) : Entry s' r reg q c := by
  obtain ⟨time, mode, proc⟩ := data_eq same
  refine ⟨entry.handle, entry.list, time.trans entry.time, fun live => ?_, fun dead => ?_⟩
  · rw [proc, mode]
    exact entry.live live
  · rw [proc, mode]
    exact entry.dead dead

theorem Core.entry (core : Core s regs cells owner pending current) (notRecycled : q ≠ .recycled) (inside : c ∈ cells q)
    (isReg : regs[owner c]? = some reg) : Entry s (owner c) reg q c := by
  obtain ⟨reg', isReg', entry⟩ := core.entries q c notRecycled inside
  obtain rfl := Option.some.inj (isReg.symm.trans isReg')
  exact entry

theorem Core.owner_inj {q' : Queue} {d : Nat} (core : Core s regs cells owner pending current) (notRecycled : q ≠ .recycled)
    (notRecycled' : q' ≠ .recycled) (inside : c ∈ cells q) (inside' : d ∈ cells q') (same : owner c = owner d) : c = d := by
  obtain ⟨reg, isReg, entry⟩ := core.entries q c notRecycled inside
  have entry' := core.entry notRecycled' inside' (same ▸ isReg)
  exact entry.handle.symm.trans entry'.handle

theorem Core.congr (core : Core s regs cells owner pending none) (shape : Shape s' cells')
    (data : ∀ d, (s'.cells d).data = (s.cells d).data) (same : ∀ q, q ≠ .recycled → cells' q = cells q) :
    Core s' regs cells' owner pending none := by
  refine ⟨shape, fun q d notRecycled inside => ?_, fun r reg isReg live again => ?_, core.modes, ?_, core.counts,
    fun q d reg notRecycled inside => ?_, fun d isCurrent => (nomatch isCurrent), core.deleted, fun d inside => ?_⟩
  · rw [same q notRecycled] at inside
    obtain ⟨reg, isReg, entry⟩ := core.entries q d notRecycled inside
    exact ⟨reg, isReg, entry.congr (data d)⟩
  · rw [same _ (list_ne reg)]
    exact core.waiting r reg isReg live again
  · rw [same _ timed_ne_recycled]
    refine core.ordered.imp fun {a b} before => ?_
    unfold Ordered
    rw [(data_eq (data a)).1, (data_eq (data b)).1]
    exact before
  · rw [same q notRecycled] at inside
    exact core.fresh q d reg notRecycled inside
  · obtain ⟨q, notRecycled, inside'⟩ := core.listed d inside
    exact ⟨q, notRecycled, (same q notRecycled).symm ▸ inside'⟩

theorem mem_behind {m : List Nat} (shape : Shape s cells) (isCells : cells q = c :: m) (d : Nat) : d ∈ m ↔ d ∈ c :: m ∧ d ≠ c := by
  have nodup := shape.threads.nodup q
  rw [isCells] at nodup
  rw [List.mem_cons]
  exact ⟨fun inM => ⟨.inr inM, fun same => (List.nodup_cons.mp nodup).1 (same ▸ inM)⟩, fun both => both.1.resolve_left both.2⟩

theorem Core.sorted (core : Core s regs cells owner pending current) :
    (cells .timed).Pairwise fun a b => (s.cells a).t ≤ (s.cells b).t :=
  core.ordered.imp fun before => before.elim le_of_lt fun same => same.1.le

theorem getElem?_concat {new : Registration} (isReg : (regs ++ [new])[r]? = some reg) :
    regs[r]? = some reg ∨ r = regs.length ∧ reg = new := by
  rcases Nat.lt_trichotomy r regs.length with below | same | above
  · rw [List.getElem?_append_left below] at isReg
    exact Or.inl isReg
  · rw [same, List.getElem?_concat_length] at isReg
    exact Or.inr ⟨same, (Option.some.inj isReg).symm⟩
  · rw [List.getElem?_eq_none (by rw [List.length_append, List.length_singleton]; omega)] at isReg
    cases isReg

theorem Core.register {new : Registration} (core : Core s regs cells owner pending current) (shape : Shape s' cells')
    (inserted : Inserted s s' cells h (new.time, new.mode, some regs.length)) (isNew : new = Registration.new new.queue new.time new.mode h)
    (mode : new.mode = .timed ↔ new.queue = none) (members : ∀ q, q ≠ .recycled → ∀ c, c ∈ cells' q ↔ c ∈ cells q ∨ q = new.list ∧ c = h)
    (ordered : (cells' .timed).Pairwise (Ordered s' (update owner h regs.length))) :
    Core s' (regs ++ [new]) cells' (update owner h regs.length) pending current := by
  have handle : new.handle = h := by rw [isNew]; rfl
  have live : new.deleted = none := by rw [isNew]; rfl
  have runs : new.runs = 0 := by rw [isNew]; rfl
  have calls : new.calls = 0 := by rw [isNew]; rfl
  have atNew : (regs ++ [new])[regs.length]? = some new := List.getElem?_concat_length
  have old : ∀ {c q}, q ≠ .recycled → c ∈ cells q → c ≠ h := fun notRecycled inside same => inserted.fresh _ notRecycled (same ▸ inside)
  have kept : ∀ {r reg}, regs[r]? = some reg → (regs ++ [new])[r]? = some reg := fun isReg =>
    (List.getElem?_append_left (List.getElem?_eq_some_iff.mp isReg).1).trans isReg
  obtain ⟨time, isMode, proc⟩ : (s'.cells h).t = new.time ∧ (s'.cells h).mode = new.mode ∧ (s'.cells h).proc = some regs.length :=
    ⟨congrArg Prod.fst inserted.mine, congrArg (·.2.1) inserted.mine, congrArg (·.2.2) inserted.mine⟩
  refine ⟨shape, fun q c notRecycled inside => ?_, fun r reg isReg isLive again => ?_, fun reg inside => ?_, ordered, fun r reg isReg isLive => ?_,
    fun q c reg notRecycled inside isReg isLive once other => ?_, fun c isCurrent => ?_, fun reg inside => ?_, fun c inside => ?_⟩
  · rcases (members q notRecycled c).mp inside with inside | ⟨isList, isH⟩
    · obtain ⟨reg, isReg, entry⟩ := core.entries q c notRecycled inside
      have other := old notRecycled inside
      rw [update_of_ne other]
      exact ⟨reg, kept isReg, entry.congr (inserted.others c other)⟩
    · rw [isH, update_self]
      exact ⟨new, atNew, handle, isList.symm, time, fun _ => ⟨proc, isMode⟩, fun dead => absurd live dead⟩
  · rcases getElem?_concat isReg with isReg | ⟨isR, rfl⟩
    · obtain ⟨inside, isOwner⟩ := core.waiting r reg isReg isLive again
      rw [update_of_ne (old (list_ne reg) inside)]
      exact ⟨(members _ (list_ne reg) _).mpr (Or.inl inside), isOwner⟩
    · rw [handle, update_self, isR]
      exact ⟨(members _ (list_ne reg) _).mpr (Or.inr ⟨rfl, rfl⟩), rfl⟩
  · rcases List.mem_append.mp inside with inside | inside
    · exact core.modes reg inside
    · rw [List.mem_singleton.mp inside]
      exact mode
  · rcases getElem?_concat isReg with isReg | ⟨isR, rfl⟩
    · rw [← core.counts r reg isReg isLive]
      congr 1
      refine if_congr (and_congr_right fun inside => ?_) rfl rfl
      obtain ⟨q, notRecycled, inside'⟩ := core.listed _ inside
      rw [update_of_ne (old notRecycled inside')]
    · have outside : reg.handle ∉ pending := fun inside => by
        obtain ⟨q, notRecycled, inside'⟩ := core.listed _ inside
        exact old notRecycled inside' handle
      rw [if_neg fun both => outside both.1, runs, Registration.expected, calls]
      split <;> rfl
  · rcases (members q notRecycled c).mp inside with inside | ⟨-, isH⟩
    · rw [update_of_ne (old notRecycled inside)] at isReg
      obtain ⟨reg', isReg', -⟩ := core.entries q c notRecycled inside
      obtain rfl := Option.some.inj ((kept isReg').symm.trans isReg)
      exact core.fresh q c reg' notRecycled inside isReg' isLive once other
    · rw [isH, update_self, atNew] at isReg
      rw [← Option.some.inj isReg, runs]
  · obtain ⟨⟨q, notRecycled, inside⟩, called⟩ := core.ran c isCurrent
    refine ⟨⟨q, notRecycled, (members q notRecycled c).mpr (Or.inl inside)⟩, fun reg isReg isLive => ?_⟩
    rw [update_of_ne (old notRecycled inside)] at isReg
    obtain ⟨reg', isReg', -⟩ := core.entries q c notRecycled inside
    obtain rfl := Option.some.inj ((kept isReg').symm.trans isReg)
    exact called reg' isReg' isLive
  · rcases List.mem_append.mp inside with inside | inside
    · exact core.deleted reg inside
    · rw [List.mem_singleton.mp inside, live]
      exact nofun
  · obtain ⟨q, notRecycled, inside'⟩ := core.listed c inside
    exact ⟨q, notRecycled, (members q notRecycled c).mpr (Or.inl inside')⟩

theorem Core.delete (core : Core s regs cells owner pending current) (isReg : regs[r]? = some reg) (live : reg.deleted = none)
    (again : reg.mode = .repeat_ ∨ reg.runs = 0) :
    Core (s.deleteCallback reg.handle) (regs.set r { reg with deleted := some reg.runs }) cells owner pending current := by
  obtain ⟨inside, isOwner⟩ := core.waiting r reg isReg live again
  obtain ⟨shape, others, mine, -⟩ := deleteCallback_spec core.shape inside
  have below := (List.getElem?_eq_some_iff.mp isReg).1
  have atNew : (regs.set r { reg with deleted := some reg.runs })[r]? = some { reg with deleted := some reg.runs } :=
    List.getElem?_set_self below
  have atOther : ∀ {r'}, r' ≠ r → (regs.set r { reg with deleted := some reg.runs })[r']? = regs[r']? := fun other =>
    List.getElem?_set_ne (Ne.symm other)
  -- A registration that is not deleted is one of the others.
  have isOther : ∀ {r' reg'}, (regs.set r { reg with deleted := some reg.runs })[r']? = some reg' → reg'.deleted = none →
      r' ≠ r ∧ regs[r']? = some reg' := fun {r' reg'} isReg' live' => by
    by_cases same : r' = r
    · rw [same, atNew] at isReg'
      rw [← Option.some.inj isReg'] at live'
      cases live'
    · exact ⟨same, (atOther same).symm.trans isReg'⟩
  have times : ∀ c, ((s.deleteCallback reg.handle).cells c).t = (s.cells c).t := fun c => by
    by_cases same : c = reg.handle
    · rw [same]
      exact congrArg Prod.fst mine
    · exact (data_eq (others c same)).1
  refine ⟨shape, fun q c notRecycled inside' => ?_, fun r' reg' isReg' live' again' => ?_, fun reg' inside' => ?_, ?_,
    fun r' reg' isReg' live' => ?_, fun q c reg' notRecycled inside' isReg' live' => ?_, fun c isCurrent => ?_, fun reg' inside' n isN => ?_,
    core.listed⟩
  · obtain ⟨reg', isReg', entry⟩ := core.entries q c notRecycled inside'
    by_cases same : c = reg.handle
    · rw [same, isOwner] at isReg'
      obtain rfl := Option.some.inj (isReg'.symm.trans isReg)
      rw [same, isOwner]
      refine ⟨_, atNew, rfl, entry.list, (times _).trans (same ▸ entry.time), fun dead => (nomatch dead), fun _ => ?_⟩
      have proc : ((s.deleteCallback reg'.handle).cells reg'.handle).proc = none := congrArg (·.2.2) mine
      have mode : ((s.deleteCallback reg'.handle).cells reg'.handle).mode =
        if (s.cells reg'.handle).mode = .repeat_ then .oneshot else (s.cells reg'.handle).mode := congrArg (·.2.1) mine
      refine ⟨proc, ?_⟩
      rw [mode]
      split
      · exact nofun
      · assumption
    · have different : owner c ≠ r := fun isR => by
        rw [isR, isReg] at isReg'
        rw [← Option.some.inj isReg'] at entry
        exact same entry.handle.symm
      exact ⟨reg', (atOther different).trans isReg', entry.congr (others c same)⟩
  · exact core.waiting r' reg' (isOther isReg' live').2 live' again'
  · rcases List.mem_or_eq_of_mem_set inside' with inside' | rfl
    · exact core.modes reg' inside'
    · exact core.modes reg (List.mem_of_getElem? isReg)
  · refine core.ordered.imp fun {a b} before => ?_
    unfold Ordered
    rw [times, times]
    exact before
  · exact core.counts r' reg' (isOther isReg' live').2 live'
  · exact core.fresh q c reg' notRecycled inside' (isOther isReg' live').2 live'
  · obtain ⟨listed, called⟩ := core.ran c isCurrent
    exact ⟨listed, fun reg' isReg' live' => called reg' (isOther isReg' live').2 live'⟩
  · rcases List.mem_or_eq_of_mem_set inside' with inside' | rfl
    · exact core.deleted reg' inside' n isN
    · exact Option.some.inj isN

theorem Core.due (core : Core s regs cells owner [] none) (condition : Registration → Bool)
    (listed : ∀ c ∈ pending, ∃ q, q ≠ .recycled ∧ c ∈ cells q)
    (isPending : ∀ r reg, regs[r]? = some reg → reg.deleted = none → reg.handle ∈ cells reg.list → owner reg.handle = r →
      (reg.handle ∈ pending ↔ condition reg = true)) : Core s (Client.due regs condition) cells owner pending none := by
  have get : ∀ r, (Client.due regs condition)[r]? = (regs[r]?).map fun reg => if condition reg then reg.called else reg := fun r => by
    unfold Client.due
    rw [List.getElem?_map]
  -- What is not changed.
  have same : ∀ reg : Registration, (if condition reg then reg.called else reg).deleted = reg.deleted ∧
      (if condition reg then reg.called else reg).mode = reg.mode ∧ (if condition reg then reg.called else reg).runs = reg.runs ∧
      (if condition reg then reg.called else reg).handle = reg.handle ∧ (if condition reg then reg.called else reg).list = reg.list ∧
      (if condition reg then reg.called else reg).time = reg.time ∧ (if condition reg then reg.called else reg).queue = reg.queue := by
    intro reg
    split <;> exact ⟨rfl, rfl, rfl, rfl, rfl, rfl, rfl⟩
  have old : ∀ {r reg'}, (Client.due regs condition)[r]? = some reg' → ∃ reg, regs[r]? = some reg ∧
      reg' = if condition reg then reg.called else reg := fun {r reg'} isReg => by
    rw [get, Option.map_eq_some_iff] at isReg
    obtain ⟨reg, isReg, isReg'⟩ := isReg
    exact ⟨reg, isReg, isReg'.symm⟩
  refine ⟨core.shape, fun q c notRecycled inside => ?_, fun r reg' isReg live again => ?_, fun reg' inside => ?_, core.ordered,
    fun r reg' isReg live => ?_, fun q c reg' notRecycled inside isReg live once _ => ?_, fun c isCurrent => (nomatch isCurrent),
    fun reg' inside => ?_, listed⟩
  · obtain ⟨reg, isReg, entry⟩ := core.entries q c notRecycled inside
    obtain ⟨deleted, mode, -, handle, list, time, -⟩ := same reg
    refine ⟨_, (get _).trans (congrArg _ isReg), handle.trans entry.handle, list.trans entry.list, entry.time.trans time.symm, ?_, ?_⟩
    · rw [deleted, mode]
      exact entry.live
    · rw [deleted]
      exact entry.dead
  · obtain ⟨reg, isOld, rfl⟩ := old isReg
    obtain ⟨deleted, mode, runs, handle, list, -, -⟩ := same reg
    rw [deleted] at live
    rw [mode, runs] at again
    rw [handle, list]
    exact core.waiting r reg isOld live again
  · obtain ⟨reg, isOld, rfl⟩ := List.mem_map.mp inside
    obtain ⟨-, mode, -, -, -, -, queue⟩ := same reg
    rw [mode, queue]
    exact core.modes reg isOld
  · obtain ⟨reg, isOld, rfl⟩ := old isReg
    obtain ⟨deleted, mode, runs, handle, list, -, -⟩ := same reg
    rw [deleted] at live
    have count := core.counts r reg isOld live
    rw [if_neg fun both => List.not_mem_nil both.1, Nat.add_zero] at count
    rw [runs, handle]
    by_cases again : reg.mode = .repeat_ ∨ reg.runs = 0
    · obtain ⟨inside, isOwner⟩ := core.waiting r reg isOld live again
      have pends := isPending r reg isOld live inside isOwner
      by_cases isDue : condition reg = true
      · rw [if_pos ⟨pends.mpr isDue, isOwner⟩, if_pos isDue]
        unfold Registration.expected at count ⊢
        show _ = if reg.mode = .repeat_ then reg.calls + 1 else min (reg.calls + 1) 1
        by_cases repeats : reg.mode = .repeat_
        · rw [if_pos repeats] at count ⊢
          omega
        · have notRun := again.resolve_left repeats
          rw [if_neg repeats] at count ⊢
          omega
      · rw [if_neg fun both => isDue (pends.mp both.1), if_neg isDue]
        exact count
    · -- It has been called, and is not on a list any more.
      rw [not_or] at again
      have outside : ¬ (reg.handle ∈ pending ∧ owner reg.handle = r) := fun both => by
        obtain ⟨q, notRecycled, inside⟩ := listed _ both.1
        exact again.2 (core.fresh q _ reg notRecycled inside (both.2.symm ▸ isOld) live again.1 nofun)
      rw [if_neg outside, Nat.add_zero, count]
      unfold Registration.expected at count ⊢
      rw [mode, if_neg again.1, if_neg again.1]
      rw [if_neg again.1] at count
      split
      · show min reg.calls 1 = min (reg.calls + 1) 1
        omega
      · rfl
  · obtain ⟨reg, isOld, rfl⟩ := old isReg
    obtain ⟨deleted, mode, runs, -, -, -, -⟩ := same reg
    rw [deleted] at live
    rw [mode] at once
    rw [runs]
    exact core.fresh q c reg notRecycled inside isOld live once nofun
  · obtain ⟨reg, isOld, rfl⟩ := List.mem_map.mp inside
    obtain ⟨deleted, -, runs, -, -, -, -⟩ := same reg
    rw [deleted, runs]
    exact core.deleted reg isOld

theorem Core.run (core : Core s regs cells owner pending none) (notRecycled : q ≠ .recycled) (inside : c ∈ cells q)
    (isPending : c ∈ pending) (rest : ∀ d, d ∈ pending' ↔ d ∈ pending ∧ d ≠ c) :
    Core s (Client.run regs (s.cells c).proc) cells owner pending' (some c) := by
  obtain ⟨reg, isReg, entry⟩ := core.entries q c notRecycled inside
  -- The registration is called, unless it is deleted.
  have get : ∀ r, (Client.run regs (s.cells c).proc)[r]? = if reg.deleted = none ∧ owner c = r then
      some { reg with runs := reg.runs + 1 } else regs[r]? := fun r => by
    by_cases live : reg.deleted = none
    · rw [(entry.live live).1]
      show (regs.modify (owner c) _)[r]? = _
      rw [List.getElem?_modify]
      by_cases same : owner c = r
      · rw [if_pos ⟨live, same⟩, ← same, isReg]
        exact congrArg some (if_pos rfl)
      · rw [if_neg fun both => same both.2]
        cases regs[r]? with
        | none => rfl
        | some a => exact congrArg some (if_neg same)
    · rw [(entry.dead live).1, if_neg fun both => live both.1]
      rfl
  have cases' : ∀ {r reg'}, (Client.run regs (s.cells c).proc)[r]? = some reg' →
      (reg.deleted = none ∧ owner c = r ∧ reg' = { reg with runs := reg.runs + 1 }) ∨
        (¬ (reg.deleted = none ∧ owner c = r) ∧ regs[r]? = some reg') := fun {r reg'} isReg' => by
    rw [get] at isReg'
    by_cases both : reg.deleted = none ∧ owner c = r
    · rw [if_pos both] at isReg'
      exact Or.inl ⟨both.1, both.2, (Option.some.inj isReg').symm⟩
    · rw [if_neg both] at isReg'
      exact Or.inr ⟨both, isReg'⟩
  have different : ∀ {d q'}, q' ≠ .recycled → d ∈ cells q' → d ≠ c → owner c ≠ owner d := fun notRecycled' inside' other same =>
    other (core.owner_inj notRecycled notRecycled' inside inside' same).symm
  have members : ∀ {reg'}, reg' ∈ Client.run regs (s.cells c).proc → ∃ r, (Client.run regs (s.cells c).proc)[r]? = some reg' :=
    fun inside' => List.mem_iff_getElem?.mp inside'
  refine ⟨core.shape, fun q' d notRecycled' inside' => ?_, fun r reg' isReg' live again => ?_, fun reg' inside' => ?_, core.ordered,
    fun r reg' isReg' live => ?_, fun q' d reg' notRecycled' inside' isReg' live once other => ?_, fun d isCurrent => ?_,
    fun reg' inside' n isN => ?_, fun d inside' => core.listed d ((rest d).mp inside').1⟩
  · by_cases same : d = c
    · subst same
      obtain ⟨reg', isReg', entry'⟩ := core.entries q' d notRecycled' inside'
      obtain rfl := Option.some.inj (isReg'.symm.trans isReg)
      rw [get]
      by_cases live : reg'.deleted = none
      · rw [if_pos ⟨live, rfl⟩]
        exact ⟨_, rfl, entry'.handle, entry'.list, entry'.time, entry'.live, entry'.dead⟩
      · rw [if_neg fun both => live both.1]
        exact ⟨reg', isReg', entry'⟩
    · rw [get, if_neg fun both => different notRecycled' inside' same both.2]
      exact core.entries q' d notRecycled' inside'
  · rcases cases' isReg' with ⟨isLive, rfl, rfl⟩ | ⟨-, isReg'⟩
    · refine core.waiting _ reg isReg isLive (Or.inl (again.resolve_right ?_))
      exact Nat.succ_ne_zero _
    · exact core.waiting r reg' isReg' live again
  · obtain ⟨r, isReg'⟩ := members inside'
    rcases cases' isReg' with ⟨-, -, rfl⟩ | ⟨-, isReg'⟩
    · exact core.modes reg (List.mem_of_getElem? isReg)
    · exact core.modes reg' (List.mem_of_getElem? isReg')
  · rcases cases' isReg' with ⟨isLive, rfl, rfl⟩ | ⟨other, isReg'⟩
    · have count := core.counts _ reg isReg isLive
      rw [if_pos ⟨entry.handle.symm ▸ isPending, congrArg owner entry.handle⟩] at count
      have outside : ¬ (reg.handle ∈ pending' ∧ owner reg.handle = owner c) := fun both =>
        ((rest _).mp both.1).2 entry.handle
      show reg.runs + 1 + (if reg.handle ∈ pending' ∧ owner reg.handle = owner c then 1 else 0) = reg.expected
      rw [if_neg outside]
      exact count
    · rw [← core.counts r reg' isReg' live]
      congr 1
      refine if_congr (and_congr_left fun isOwner => ?_) rfl rfl
      rw [rest]
      refine and_iff_left fun same => other ⟨?_, same ▸ isOwner⟩
      rw [← isOwner, same, isReg] at isReg'
      exact Option.some.inj isReg' ▸ live
  · have other' : d ≠ c := fun same => other (congrArg some same.symm)
    rcases cases' isReg' with ⟨-, same, -⟩ | ⟨-, isReg'⟩
    · exact absurd same (different notRecycled' inside' other')
    · exact core.fresh q' d reg' notRecycled' inside' isReg' live once nofun
  · obtain rfl := Option.some.inj isCurrent
    refine ⟨⟨q, notRecycled, inside⟩, fun reg' isReg' live => ?_⟩
    rcases cases' isReg' with ⟨-, -, rfl⟩ | ⟨other, isReg'⟩
    · exact Nat.succ_ne_zero _
    · rw [isReg] at isReg'
      exact absurd ⟨Option.some.inj isReg' ▸ live, rfl⟩ other
  · obtain ⟨r, isReg'⟩ := members inside'
    rcases cases' isReg' with ⟨isLive, -, rfl⟩ | ⟨-, isReg'⟩
    · exact absurd (isLive.symm.trans isN) nofun
    · exact core.deleted reg' (List.mem_of_getElem? isReg') n isN

theorem Core.leave (core : Core s regs cells owner pending (some c)) (shape : Shape s' cells') (outside : c ∉ pending)
    (once : (s.cells c).mode ≠ .repeat_) (data : ∀ d, (s'.cells d).data = (s.cells d).data)
    (members : ∀ q, q ≠ .recycled → ∀ d, d ∈ cells' q ↔ d ∈ cells q ∧ d ≠ c) (sub : (cells' .timed).Sublist (cells .timed)) :
    Core s' regs cells' owner pending none := by
  obtain ⟨⟨q, notRecycled, inside⟩, called⟩ := core.ran c rfl
  refine ⟨shape, fun q' d notRecycled' inside' => ?_, fun r reg isReg live again => ?_, core.modes, ?_, core.counts,
    fun q' d reg notRecycled' inside' isReg live isOnce _ => ?_, fun d isCurrent => (nomatch isCurrent), core.deleted, fun d inside' => ?_⟩
  · obtain ⟨reg, isReg, entry⟩ := core.entries q' d notRecycled' ((members q' notRecycled' d).mp inside').1
    exact ⟨reg, isReg, entry.congr (data d)⟩
  · obtain ⟨inside', isOwner⟩ := core.waiting r reg isReg live again
    refine ⟨(members _ (list_ne reg) _).mpr ⟨inside', fun same => ?_⟩, isOwner⟩
    obtain ⟨reg', isReg', entry⟩ := core.entries q c notRecycled inside
    rw [same] at isOwner
    rw [isOwner, isReg] at isReg'
    obtain rfl := Option.some.inj isReg'
    rcases again with repeats | notRun
    · exact once ((entry.live live).2.trans repeats)
    · exact called reg (isOwner.symm ▸ isReg) live notRun
  · refine (core.ordered.sublist sub).imp fun {a b} before => ?_
    unfold Ordered
    rw [(data_eq (data a)).1, (data_eq (data b)).1]
    exact before
  · obtain ⟨inside'', other⟩ := (members q' notRecycled' d).mp inside'
    exact core.fresh q' d reg notRecycled' inside'' isReg live isOnce fun same => other (Option.some.inj same).symm
  · obtain ⟨q', notRecycled', inside''⟩ := core.listed d inside'
    exact ⟨q', notRecycled', (members q' notRecycled' d).mpr ⟨inside'', fun same => outside (same ▸ inside')⟩⟩

theorem Core.keep (core : Core s regs cells owner pending (some c)) (inside : c ∈ cells (.list k)) (kept : (s.cells c).mode ≠ .oneshot) :
    Core s regs cells owner pending none := by
  refine ⟨core.shape, core.entries, core.waiting, core.modes, core.ordered, core.counts,
    fun q d reg notRecycled inside' isReg live once _ => ?_, fun d isCurrent => (nomatch isCurrent), core.deleted, core.listed⟩
  by_cases same : d = c
  · subst same
    have entry := core.entry (list_ne_recycled k) inside isReg
    have mode := (entry.live live).2
    have isList := list_eq_list.mp entry.list
    have notTimed : reg.mode ≠ .timed := fun timed => by
      rw [(core.modes reg (List.mem_of_getElem? isReg)).mp timed] at isList
      cases isList
    rw [mode] at kept
    cases isMode : reg.mode with
    | timed => exact absurd isMode notTimed
    | repeat_ => exact absurd isMode once
    | oneshot => exact absurd isMode kept
  · exact core.fresh q d reg notRecycled inside' isReg live once fun isCurrent => same (Option.some.inj isCurrent).symm

/-- What is pending where the client is. -/
def Client.At (client : Client) (cells : Queue → List Nat) (pending : List Nat) (current : Option Nat) : Prop :=
  match client.phase with
  | .idle => pending = [] ∧ current = none
  | .timed _ => current = none ∧ ∀ c, c ∈ pending ↔ c ∈ cells .timed ∧ (client.state.cells c).t ≤ client.currentTime
  | .calling loop _ => current = some loop.cell ∧ ∃ front back, cells (.list loop.list) = front ++ loop.cell :: (pending ++ back) ∧
      loop.prevCell = front.getLast? ∧ loop.last = (loop.cell :: pending).getLast?

/-- The time of the first timed callback. -/
def firstTime (s : State) (cells : Queue → List Nat) : Int := ((cells .timed).head?.map fun c => (s.cells c).t).getD stdTimeLast

structure Client.Holds (client : Client) (cells : Queue → List Nat) (owner : Nat → Nat) (pending : List Nat) (current : Option Nat) :
    Prop where
  core : Core client.state client.registered cells owner pending current
  position : client.At cells pending current
  timeout : (∀ proc, client.phase ≠ .timed proc) → client.state.firstTimeout = firstTime client.state cells

def Client.Valid (client : Client) : Prop := ∃ cells owner pending current, client.Holds cells owner pending current

theorem firstTime_congr (same : cells' .timed = cells .timed) (times : ∀ c ∈ cells .timed, (s'.cells c).t = (s.cells c).t) :
    firstTime s' cells' = firstTime s cells := by
  unfold firstTime
  rw [same]
  cases isCells : cells .timed with
  | nil => rfl
  | cons c m =>
    have mine := times c (by rw [isCells]; exact List.mem_cons_self)
    exact mine

variable {client : Client}

/-- Where the client is does not change, nor what is due, and cells are only put behind the others. -/
theorem Client.At.move {client' : Client} (position : client.At cells pending current) (phase : client'.phase = client.phase)
    (now : client'.currentTime = client.currentTime) (due : ∀ proc, client.phase = .timed proc → ∀ c,
      c ∈ cells' .timed ∧ (client'.state.cells c).t ≤ client.currentTime ↔
        c ∈ cells .timed ∧ (client.state.cells c).t ≤ client.currentTime)
    (behind : ∀ k, ∃ m, cells' (.list k) = cells (.list k) ++ m) : client'.At cells' pending current := by
  unfold Client.At at position ⊢
  rw [phase, now]
  cases isPhase : client.phase with
  | idle =>
    rw [isPhase] at position
    exact position
  | timed proc =>
    rw [isPhase] at position
    exact ⟨position.1, fun c => (position.2 c).trans (due proc isPhase c).symm⟩
  | calling loop proc =>
    rw [isPhase] at position
    obtain ⟨isCurrent, front, back, isCells, prev, last⟩ := position
    obtain ⟨m, more⟩ := behind loop.list
    exact ⟨isCurrent, front, back ++ m, by rw [more, isCells]; simp, prev, last⟩

theorem Client.Valid.registerAt (valid : client.Valid) (t : Int)
    (future : ∀ proc, client.phase = .timed proc → client.currentTime < t) :
    ∃ client', client.step (.registerAt t) = .ok client' ∧ client'.Valid := by
  obtain ⟨cells, owner, pending, current, core, position, timeout⟩ := valid
  obtain ⟨s', h, l, m, cells', run, split, before, after, inserted, shape, newTimed, newLists, first⟩ :=
    registerCallbackAt_spec core.shape core.sorted t client.registered.length
  have old : ∀ {c}, c ∈ cells .timed → c ≠ h := fun inside same => inserted.fresh _ timed_ne_recycled (same ▸ inside)
  have times : ∀ {c}, c ≠ h → (s'.cells c).t = (client.state.cells c).t := fun other => (data_eq (inserted.others _ other)).1
  have mine : (s'.cells h).t = t := congrArg Prod.fst inserted.mine
  have notPending : h ∉ pending := fun inside => by
    obtain ⟨q, notRecycled, inside'⟩ := core.listed h inside
    exact inserted.fresh q notRecycled inside'
  have isOwner : ∀ c ∈ cells .timed, owner c < client.registered.length := fun c inside => by
    obtain ⟨reg, isReg, -⟩ := core.entries _ c timed_ne_recycled inside
    exact (List.getElem?_eq_some_iff.mp isReg).1
  have inL : ∀ c ∈ l, c ∈ cells .timed := fun c inside => by rw [split]; exact List.mem_append_left _ inside
  have inM : ∀ c ∈ m, c ∈ cells .timed := fun c inside => by rw [split]; exact List.mem_append_right _ inside
  -- The others keep their order, and the new one is the last of those of its time.
  have kept : ∀ {a b}, a ∈ cells .timed → b ∈ cells .timed → Ordered client.state owner a b →
      Ordered s' (update owner h client.registered.length) a b := fun insideA insideB ordered => by
    unfold Ordered
    rw [times (old insideA), times (old insideB), update_of_ne (old insideA), update_of_ne (old insideB)]
    exact ordered
  have ordered : (cells' .timed).Pairwise (Ordered s' (update owner h client.registered.length)) := by
    have pairs := core.ordered
    rw [split, List.pairwise_append] at pairs
    obtain ⟨pairsL, pairsM, across⟩ := pairs
    rw [newTimed, List.pairwise_append]
    refine ⟨pairsL.imp_of_mem fun insideA insideB => kept (inL _ insideA) (inL _ insideB),
      List.pairwise_cons.mpr ⟨fun c inside => ?_, pairsM.imp_of_mem fun insideA insideB => kept (inM _ insideA) (inM _ insideB)⟩,
      fun c inside d inside' => ?_⟩
    · left
      rw [mine, times (old (inM c inside))]
      exact after c inside
    rcases List.mem_cons.mp inside' with rfl | inside'
    · have low := before c inside
      unfold Ordered
      rw [mine, times (old (inL c inside)), update_self, update_of_ne (old (inL c inside))]
      rcases lt_or_eq_of_le low with less | same
      · exact Or.inl less
      · exact Or.inr ⟨same, isOwner c (inL c inside)⟩
    · exact kept (inL c inside) (inM d inside') (across c inside d inside')
  have members : ∀ q, q ≠ .recycled → ∀ c, c ∈ cells' q ↔ c ∈ cells q ∨ q = (Registration.new none t .timed h).list ∧ c = h := by
    intro q notRecycled c
    cases q with
    | recycled => exact absurd rfl notRecycled
    | timed =>
      rw [newTimed, split, List.mem_append, List.mem_append, List.mem_cons]
      have isTimed : Queue.timed = (Registration.new none t .timed h).list := rfl
      rw [← isTimed]
      tauto
    | list k =>
      rw [newLists]
      exact ⟨Or.inl, fun either => either.resolve_right fun both => (nomatch both.1)⟩
  have core' := @Core.register _ _ _ _ _ _ _ _ _ (Registration.new none t .timed h) core shape inserted rfl ⟨fun _ => rfl, fun _ => rfl⟩
    members ordered
  refine ⟨_, by unfold Client.step; dsimp only; rw [run]; rfl, cells', _, pending, current, core', ?_, fun notTimed => ?_⟩
  · refine position.move rfl rfl (fun proc isPhase c => ?_) fun k => ⟨[], by rw [newLists, List.append_nil]⟩
    rw [newTimed, split]
    by_cases same : c = h
    · have notIn : h ∉ l ++ m := fun inside => old (split ▸ inside) rfl
      have late := future proc isPhase
      rw [same, mine]
      exact ⟨fun both => absurd both.2 (not_le.mpr late), fun both => absurd both.1 notIn⟩
    · rw [times same]
      simp [same]
  · have timeout' := timeout notTimed
    refine first.trans ?_
    unfold firstTime at timeout' ⊢
    rw [newTimed]
    cases l with
    | nil => exact mine.symm
    | cons a l =>
      rw [if_neg (List.cons_ne_nil a l), timeout', split]
      exact (times (old (inL a List.mem_cons_self))).symm

theorem Client.Valid.register {client : Client} (valid : client.Valid) (k : Nat) (again : Bool) :
    ∃ client', client.step (.register k again) = .ok client' ∧ client'.Valid := by
  obtain ⟨cells, owner, pending, current, core, position, timeout⟩ := valid
  obtain ⟨s', h, cells', run, inserted, shape, newTimed, newList, newOther, first⟩ :=
    registerCallback_spec core.shape k (if again then .repeat_ else .oneshot) client.registered.length
  have old : ∀ {c}, c ∈ cells .timed → c ≠ h := fun inside same => inserted.fresh _ timed_ne_recycled (same ▸ inside)
  have times : ∀ {c}, c ≠ h → (s'.cells c).t = (client.state.cells c).t := fun other => (data_eq (inserted.others _ other)).1
  have ordered : (cells' .timed).Pairwise (Ordered s' (update owner h client.registered.length)) := by
    rw [newTimed]
    refine core.ordered.imp_of_mem fun {a b} insideA insideB before => ?_
    unfold Ordered
    rw [times (old insideA), times (old insideB), update_of_ne (old insideA), update_of_ne (old insideB)]
    exact before
  have members : ∀ q, q ≠ .recycled → ∀ c, c ∈ cells' q ↔ c ∈ cells q ∨ q = .list k ∧ c = h := by
    intro q notRecycled c
    cases q with
    | recycled => exact absurd rfl notRecycled
    | timed =>
      rw [newTimed]
      exact ⟨Or.inl, fun either => either.resolve_right fun both => (nomatch both.1)⟩
    | list k' =>
      by_cases same : k' = k
      · rw [same, newList, List.mem_append, List.mem_singleton]
        exact or_congr_right ⟨fun isH => ⟨rfl, isH⟩, And.right⟩
      · rw [newOther k' same]
        exact ⟨Or.inl, fun either => either.resolve_right fun both => same (Queue.list.inj both.1)⟩
  have core' := @Core.register _ _ _ _ _ _ _ _ _ (Registration.new (some k) 0 (if again then .repeat_ else .oneshot) h) core shape
    inserted rfl (by cases again <;> exact ⟨nofun, nofun⟩) members ordered
  refine ⟨_, by unfold Client.step; dsimp only; rw [run]; rfl, cells', _, pending, current, core', ?_, fun notTimed => ?_⟩
  · refine position.move rfl rfl (fun proc _ c => ?_) fun k' => ?_
    · rw [newTimed]
      refine and_congr_right fun inside => ?_
      rw [times (old inside)]
    · by_cases same : k' = k
      · exact ⟨[h], by rw [same, newList]⟩
      · exact ⟨[], by rw [newOther k' same, List.append_nil]⟩
  · exact first.trans ((timeout notTimed).trans (firstTime_congr newTimed fun c inside => times (old inside)).symm)

theorem Client.Valid.delete (valid : client.Valid) {r : Nat} {reg : Registration}
    (isReg : client.registered[r]? = some reg) (isPending : reg.pending = true) :
    ∃ client', client.step (.delete r) = .ok client' ∧ client'.Valid := by
  obtain ⟨cells, owner, pending, current, core, position, timeout⟩ := valid
  have conditions : reg.deleted = none ∧ (reg.mode = .repeat_ ∨ reg.runs = 0) := of_decide_eq_true isPending
  obtain ⟨inside, -⟩ := core.waiting r reg isReg conditions.1 conditions.2
  obtain ⟨-, others, mine, first⟩ := deleteCallback_spec core.shape inside
  have times : ∀ c, ((client.state.deleteCallback reg.handle).cells c).t = (client.state.cells c).t := fun c => by
    by_cases same : c = reg.handle
    · rw [same]
      exact congrArg Prod.fst mine
    · exact (data_eq (others c same)).1
  refine ⟨_, by unfold Client.step; dsimp only; rw [isReg], cells, owner, pending, current,
    core.delete isReg conditions.1 conditions.2, ?_, fun notTimed => ?_⟩
  · refine position.move rfl rfl (fun proc _ c => ?_) fun k => ⟨[], (List.append_nil _).symm⟩
    rw [times]
  · exact first.trans ((timeout notTimed).trans (firstTime_congr rfl fun c _ => times c).symm)

theorem Core.timed {client : Client} (core : Core client.state client.registered cells owner pending none)
    (isPending : ∀ c, c ∈ pending ↔ c ∈ cells .timed ∧ (client.state.cells c).t ≤ client.currentTime) :
    (Client.timed client (client.state.nextTimeCallback client.currentTime)).Valid := by
  rcases nextTimeCallback_spec core.shape client.currentTime with ⟨after, s', run, same, shape, first⟩ |
    ⟨c, m, s', isCells, due, run, data, cells', shape, newTimed, newLists⟩
  · -- No callback is due any more.
    have nothing : pending = [] := List.eq_nil_iff_forall_not_mem.mpr fun c inside => by
      obtain ⟨inside', low⟩ := (isPending c).mp inside
      cases isCells : cells .timed with
      | nil =>
        rw [isCells] at inside'
        cases inside'
      | cons d m =>
        have late := after d (by rw [isCells]; rfl)
        have sorted := core.sorted
        rw [isCells] at inside' sorted
        rcases List.mem_cons.mp inside' with rfl | inside'
        · exact absurd low (not_le.mpr late)
        · exact absurd low (not_le.mpr (lt_of_lt_of_le late ((List.pairwise_cons.mp sorted).1 c inside')))
    rw [run]
    have data : ∀ d, (s'.cells d).data = (client.state.cells d).data := fun d => by rw [same]
    refine ⟨cells, owner, pending, none, core.congr shape data fun _ _ => rfl, ⟨nothing, rfl⟩, fun _ => first.trans ?_⟩
    exact (firstTime_congr rfl fun d _ => congrArg Cell.t (congrFun same d)).symm
  · have inside : c ∈ cells .timed := by rw [isCells]; exact List.mem_cons_self
    have called := @Core.run _ _ _ _ _ (pending.filter (· ≠ c)) _ _ core timed_ne_recycled inside
      ((isPending c).mpr ⟨inside, due⟩) fun d => by simp
    have once : (client.state.cells c).mode ≠ .repeat_ := by
      obtain ⟨reg, isReg, entry⟩ := core.entries _ c timed_ne_recycled inside
      by_cases live : reg.deleted = none
      · rw [(entry.live live).2, (core.modes reg (List.mem_of_getElem? isReg)).mpr (list_eq_timed.mp entry.list)]
        exact nofun
      · exact (entry.dead live).2
    have members : ∀ q, q ≠ .recycled → ∀ d, d ∈ cells' q ↔ d ∈ cells q ∧ d ≠ c := by
      intro q notRecycled d
      cases q with
      | recycled => exact absurd rfl notRecycled
      | timed =>
        rw [newTimed, isCells]
        exact mem_behind core.shape isCells d
      | list k =>
        rw [newLists]
        refine (and_iff_left_of_imp fun inList same => ?_).symm
        exact core.shape.threads.disjoint _ _ (list_ne_timed k).symm c inside (same ▸ inList)
    have left := called.leave shape (by simp) once data members (by rw [newTimed, isCells]; exact List.sublist_cons_self c m)
    rw [run]
    refine ⟨cells', owner, _, none, left, ⟨rfl, fun d => ?_⟩, fun notTimed => absurd rfl (notTimed _)⟩
    show d ∈ pending.filter (· ≠ c) ↔ d ∈ cells' .timed ∧ (s'.cells d).t ≤ client.currentTime
    rw [List.mem_filter, isPending, members _ timed_ne_recycled, (data_eq (data d)).1, decide_eq_true_iff]
    tauto

theorem Client.Valid.callTime (valid : client.Valid) (idle : client.phase = .idle)
    (isNow : client.state.firstTimeout = client.currentTime) :
    ∃ client', client.step .callTime = .ok client' ∧ client'.Valid := by
  obtain ⟨cells, owner, pending, current, core, position, timeout⟩ := valid
  unfold Client.At at position
  rw [idle] at position
  obtain ⟨rfl, rfl⟩ := position
  have listed : ∀ c ∈ (cells .timed).filter fun c => (client.state.cells c).t ≤ client.currentTime, ∃ q, q ≠ .recycled ∧ c ∈ cells q :=
    fun c inside => ⟨.timed, timed_ne_recycled, (List.mem_filter.mp inside).1⟩
  have due := core.due (fun reg => reg.queue = none ∧ reg.time ≤ client.currentTime) listed fun r reg isReg _ inside isOwner => by
    obtain ⟨reg', isReg', entry⟩ := core.entries _ _ (list_ne reg) inside
    rw [isOwner, isReg] at isReg'
    obtain rfl := Option.some.inj isReg'
    rw [List.mem_filter, decide_eq_true_iff, decide_eq_true_iff, entry.time]
    refine and_congr_left fun _ => ⟨fun inTimed => ?_, fun isTimed => ?_⟩
    · by_contra other
      refine core.shape.threads.disjoint _ _ (fun same => other (list_eq_timed.mp same)) _ inside inTimed
    · exact list_eq_timed.mpr isTimed ▸ inside
  obtain ⟨registered, isRegistered⟩ : ∃ registered, registered =
    Client.due client.registered fun reg => reg.queue = none ∧ reg.time ≤ client.currentTime := ⟨_, rfl⟩
  rw [← isRegistered] at due
  have called := @Core.timed cells owner _ { client with registered := registered } due fun c => by
    rw [List.mem_filter, decide_eq_true_iff]
  refine ⟨_, ?_, called⟩
  rw [isRegistered]
  unfold Client.step State.callTimeCallbacks
  dsimp only
  rw [if_pos isNow]
  rfl

theorem Client.Valid.call (valid : client.Valid) (idle : client.phase = .idle) (k : Nat) :
    ∃ client', client.step (.call k) = .ok client' ∧ client'.Valid := by
  obtain ⟨cells, owner, pending, current, core, position, timeout⟩ := valid
  unfold Client.At at position
  rw [idle] at position
  obtain ⟨rfl, rfl⟩ := position
  have timeout' := timeout fun proc isTimed => nomatch idle.symm.trans isTimed
  have listed : ∀ c ∈ cells (.list k), ∃ q, q ≠ .recycled ∧ c ∈ cells q := fun c inside => ⟨.list k, list_ne_recycled k, inside⟩
  have due := core.due (fun reg => reg.queue = some k) listed fun r reg isReg _ inside isOwner => by
    rw [decide_eq_true_iff]
    constructor
    · intro inList
      by_contra other
      exact core.shape.threads.disjoint _ _ (fun same => other (list_eq_list.mp same)) _ inside inList
    · exact fun isList => list_eq_list.mpr isList ▸ inside
  refine ⟨_, rfl, ?_⟩
  have head : (client.state.lists k).first = (cells (.list k)).head? := core.shape.heads (.list k)
  unfold State.callCallbacks
  rw [head, core.shape.lasts]
  cases isCells : cells (.list k) with
  | nil =>
    rw [isCells] at due
    exact ⟨cells, owner, [], none, due, ⟨rfl, rfl⟩, fun _ => timeout'⟩
  | cons c m =>
    have inside : c ∈ cells (.list k) := by rw [isCells]; exact List.mem_cons_self
    have called := @Core.run _ _ _ _ _ m _ _ due (list_ne_recycled k) inside inside fun d => by
      rw [isCells]
      exact mem_behind core.shape isCells d
    refine ⟨cells, owner, m, some c, called, ⟨rfl, [], [], ?_, rfl, rfl⟩, fun _ => timeout'⟩
    rw [List.append_nil]
    exact isCells

theorem Client.Valid.return_ (valid : client.Valid) : ∃ client', client.step .return_ = .ok client' ∧ client'.Valid := by
  cases isPhase : client.phase with
  | idle =>
    refine ⟨client, ?_, valid⟩
    unfold Client.step
    dsimp only
    rw [isPhase]
  | timed proc =>
    obtain ⟨cells, owner, pending, current, core, position, -⟩ := valid
    unfold Client.At at position
    rw [isPhase] at position
    obtain ⟨rfl, isPending⟩ := position
    refine ⟨_, ?_, core.timed isPending⟩
    unfold Client.step
    dsimp only
    rw [isPhase]
  | calling loop proc =>
    obtain ⟨cells, owner, pending, current, core, position, timeout⟩ := valid
    have timeout' := timeout fun proc isTimed => nomatch isPhase.symm.trans isTimed
    unfold Client.At at position
    rw [isPhase] at position
    obtain ⟨rfl, front, back, split, prev, last⟩ := position
    have inside : loop.cell ∈ cells (.list loop.list) := by rw [split]; simp
    have nodup := core.shape.threads.nodup (.list loop.list)
    have distinct : loop.cell ∉ front ∧ loop.cell ∉ pending ++ back := by
      rw [split] at nodup
      obtain ⟨-, second, apart⟩ := List.nodup_append.mp nodup
      exact ⟨fun inFront => apart _ inFront _ List.mem_cons_self rfl, (List.nodup_cons.mp second).1⟩
    have notPending : loop.cell ∉ pending := fun inPending => distinct.2 (List.mem_append_left _ inPending)
    have isLast : loop.last = some loop.cell ↔ pending = [] := by
      rw [last]
      constructor
      · intro same
        rcases List.eq_nil_or_concat pending with isNil | ⟨l, d, isSnoc⟩
        · exact isNil
        · rw [List.concat_eq_append] at isSnoc
          rw [isSnoc, ← List.cons_append, List.getLast?_concat] at same
          exact absurd (by rw [isSnoc, ← Option.some.inj same]; simp) notPending
      · intro isNil
        rw [isNil]
        rfl
    obtain ⟨s', cells', front', run, data, shape, newList, isFront, newTimed, newOther, first⟩ := afterCall_spec core.shape split prev
      fun other none' => other (isLast.mpr (List.append_eq_nil_iff.mp none').1)
    have members : (client.state.cells loop.cell).mode = .oneshot → ∀ q, q ≠ .recycled → ∀ d, d ∈ cells' q ↔ d ∈ cells q ∧ d ≠ loop.cell := by
      intro oneshot q notRecycled d
      rw [if_pos oneshot] at isFront
      by_cases same : q = .list loop.list
      · rw [same, newList, split, isFront]
        simp only [List.mem_append, List.mem_cons]
        constructor
        · intro either
          refine ⟨by tauto, fun isCell => ?_⟩
          rw [isCell] at either
          rcases either with inFront | inRest
          · exact distinct.1 inFront
          · exact distinct.2 (List.mem_append.mpr inRest)
        · tauto
      · have sameCells : cells' q = cells q := by
          cases q with
          | recycled => exact absurd rfl notRecycled
          | timed => exact newTimed
          | list k => exact newOther k fun isList => same (congrArg Queue.list isList)
        rw [sameCells]
        refine (and_iff_left_of_imp fun inList isCell => ?_).symm
        exact core.shape.threads.disjoint _ _ (Ne.symm same) _ inside (isCell ▸ inList)
    have core' : Core s' client.registered cells' owner pending none := by
      by_cases oneshot : (client.state.cells loop.cell).mode = .oneshot
      · exact core.leave shape notPending (by rw [oneshot]; exact nofun) data (members oneshot) (by rw [newTimed])
      have kept := core.keep inside oneshot
      have sameMembers : ∀ q, q ≠ .recycled → cells' q = cells q := by
        intro q notRecycled
        cases q with
        | recycled => exact absurd rfl notRecycled
        | timed => exact newTimed
        | list k =>
          by_cases same : k = loop.list
          · rw [if_neg oneshot] at isFront
            rw [same, newList, isFront, split, List.append_assoc]
            rfl
          · exact newOther k same
      exact kept.congr shape data sameMembers
    have timeout'' : s'.firstTimeout = firstTime s' cells' :=
      first.trans (timeout'.trans (firstTime_congr newTimed fun c _ => (data_eq (data c)).1).symm)
    refine ⟨_, by unfold Client.step; dsimp only; rw [isPhase]; dsimp only; rw [run]; rfl, ?_⟩
    by_cases finished : loop.last = some loop.cell
    · rw [if_pos finished]
      exact ⟨cells', owner, pending, none, core', ⟨isLast.mp finished, rfl⟩, fun _ => timeout''⟩
    rw [if_neg finished]
    obtain ⟨d, rest, isPending⟩ := List.exists_cons_of_ne_nil fun none' => finished (isLast.mpr none')
    rw [isPending] at newList core' last
    have inside' : d ∈ cells' (.list loop.list) := by rw [newList]; simp
    have notRest : d ∉ rest := by
      have nodup' := shape.threads.nodup (.list loop.list)
      rw [newList] at nodup'
      have second := (List.nodup_append.mp nodup').2.1
      exact fun inRest => (List.nodup_cons.mp second).1 (List.mem_append_left _ inRest)
    have called := @Core.run _ _ _ _ _ rest _ _ core' (list_ne_recycled _) inside' List.mem_cons_self fun e => by
      rw [List.mem_cons]
      constructor
      · exact fun inRest => ⟨Or.inr inRest, fun same => notRest (same ▸ inRest)⟩
      · exact fun both => both.1.resolve_left both.2
    rw [isPending]
    refine ⟨cells', owner, rest, some d, called, ⟨rfl, front', back, newList, rfl, ?_⟩, fun _ => timeout''⟩
    show loop.last = (d :: rest).getLast?
    rw [last, List.getLast?_cons_cons]

/-- Each step succeeds, unless the timed callbacks are called at another time than that of the first one. -/
theorem Client.Valid.step {client : Client} (valid : client.Valid) {action : Action} (enabled : action.enabled client = true)
    (future : Future client action) (isNow : action = .callTime → client.state.firstTimeout = client.currentTime) :
    ∃ client', client.step action = .ok client' ∧ client'.Valid := by
  cases action with
  | setTime t =>
    have idle : client.phase = .idle := of_decide_eq_true enabled
    obtain ⟨cells, owner, pending, current, core, position, timeout⟩ := valid
    unfold Client.At at position
    rw [idle] at position
    refine ⟨_, rfl, cells, owner, pending, current, core, ?_, timeout⟩
    unfold Client.At
    rw [idle]
    exact position
  | registerAt t => exact valid.registerAt t future
  | register k again => exact valid.register k again
  | delete r =>
    have both : (client.phase.acts && (client.registered[r]?).any Registration.pending) = true := enabled
    rw [Bool.and_eq_true] at both
    cases isReg : client.registered[r]? with
    | none =>
      rw [isReg] at both
      exact absurd both.2 nofun
    | some reg =>
      rw [isReg] at both
      exact valid.delete isReg both.2
  | callTime => exact valid.callTime (of_decide_eq_true enabled) (isNow rfl)
  | call k => exact valid.call (of_decide_eq_true enabled) k
  | return_ => exact valid.return_

theorem Client.init_valid : Client.init.Valid := by
  refine ⟨fun _ => [], fun _ => 0, [], none, ⟨⟨⟨fun _ => rfl, fun _ _ _ _ inside => absurd inside List.not_mem_nil, fun c linked => ?_⟩,
    fun q => by cases q <;> rfl, fun _ => rfl⟩, fun _ _ _ inside => absurd inside List.not_mem_nil, fun r reg isReg => ?_,
    fun reg inside => absurd inside List.not_mem_nil, List.Pairwise.nil, fun r reg isReg => ?_,
    fun _ _ _ _ inside => absurd inside List.not_mem_nil, fun c isCurrent => (nomatch isCurrent),
    fun reg inside => absurd inside List.not_mem_nil, fun c inside => absurd inside List.not_mem_nil⟩, ⟨rfl, rfl⟩, fun _ => rfl⟩
  · exact absurd (if_neg (Nat.not_lt_zero c)) linked
  all_goals exact absurd isReg nofun

/-- In every run: each cell that has been allocated is on one list of callbacks or is recycled; the timed callbacks are sorted by
time and registration; First_Timeout is the time of the first of them unless they are being called; a callback that is not
deleted has been called as often as it has to be, but for those that are pending in the call in progress, and one that is
deleted has not been called since; and each step succeeds when the timed callbacks are called at the time of the first. -/
theorem callbacks_runs {client : Client} (run : callbackSystem.Run Future Client.init client) :
    ∃ cells : Queue → List Nat, ∃ owner : Nat → Nat,
      ((∀ q, Segment (links client.state) (client.state.head q) (cells q) none) ∧
        (∀ q q', q ≠ q' → ∀ c ∈ cells q, c ∉ cells q') ∧ ∀ c < client.state.allocated, ∃ q, c ∈ cells q) ∧
      (∀ q, q ≠ .recycled → ∀ c ∈ cells q, ∃ reg, client.registered[owner c]? = some reg ∧ reg.handle = c ∧ reg.list = q ∧
        (client.state.cells c).t = reg.time) ∧ (cells .timed).Pairwise (Ordered client.state owner) ∧
      ((∀ proc, client.phase ≠ .timed proc) → client.state.firstTimeout = firstTime client.state cells) ∧
      (∀ reg ∈ client.registered, reg.deleted = none → reg.runs ≤ reg.expected ∧ (client.phase = .idle → reg.runs = reg.expected)) ∧
      (∀ reg ∈ client.registered, ∀ n, reg.deleted = some n → reg.runs = n) ∧
      ∀ action, callbackSystem.enabled client action = true → Future client action →
        (action = .callTime → client.state.firstTimeout = client.currentTime) → ∃ client', client.step action = .ok client' := by
  have valid : client.Valid := run.invariant Client.init_valid fun client action client' valid enabled future result => by
    have isNow : action = .callTime → client.state.firstTimeout = client.currentTime := fun isCall => by
      by_contra other
      subst isCall
      have failed : client.step .callTime = .error .assertion := by
        unfold Client.step State.callTimeCallbacks
        dsimp only
        rw [if_neg other]
        rfl
      cases failed.symm.trans result
    obtain ⟨client'', step, valid'⟩ := valid.step enabled future isNow
    exact Except.ok.inj (step.symm.trans result) ▸ valid'
  have succeeds := fun action enabled future isNow => @Client.Valid.step client valid action enabled future isNow
  obtain ⟨cells, owner, pending, current, core, position, timeout⟩ := valid
  refine ⟨cells, owner, ⟨fun q => ?_, core.shape.threads.disjoint, fun c low => ?_⟩, fun q notRecycled c inside => ?_, core.ordered, timeout,
    fun reg inside live => ?_, core.deleted, fun action enabled future isNow => ?_⟩
  · rw [core.shape.heads q]
    exact core.shape.threads.path q
  · refine core.shape.threads.complete c ?_
    rw [links, if_pos low]
    exact Option.some_ne_none _
  · obtain ⟨reg, isReg, entry⟩ := core.entries q c notRecycled inside
    exact ⟨reg, isReg, entry.handle, entry.list, entry.time⟩
  · obtain ⟨r, isReg⟩ := List.mem_iff_getElem?.mp inside
    have count := core.counts r reg isReg live
    refine ⟨by omega, fun idle => ?_⟩
    unfold Client.At at position
    rw [idle] at position
    rw [position.1, if_neg fun both => List.not_mem_nil both.1] at count
    exact count
  · obtain ⟨client', step, -⟩ := succeeds action enabled future isNow
    exact ⟨client', step⟩

/-- A callback that registers another one of its list while it is called, and a timed callback. -/
theorem callbacks_runs_nested : ∃ client, callbackSystem.Run Future Client.init client ∧
    client.registered.map (fun reg => (reg.calls, reg.runs)) = [(2, 2), (1, 1), (1, 1)] ∧
    ∀ reg ∈ client.registered, reg.deleted = none → client.phase = .idle → reg.runs = reg.expected := by
  have step {s t u : Client} (label : Action) := @Transition.System.Run.step _ _ _ callbackSystem Future s t u label
  have run₁ := step (.register 0 true)
    (@Transition.System.Run.refl _ _ _ callbackSystem Future Client.init) rfl trivial rfl
  have run₂ := step (.call 0) run₁ rfl trivial rfl
  have run₃ := step (.register 0 false) run₂ rfl trivial rfl
  have run₄ := step .return_ run₃ rfl trivial rfl
  have run₅ := step (.call 0) run₄ rfl trivial rfl
  have run₆ := step .return_ run₅ rfl trivial rfl
  have run₇ := step .return_ run₆ rfl trivial rfl
  have run₈ := step (.registerAt 0) run₇ rfl
    (fun proc isTimed => nomatch isTimed) rfl
  have run₉ := step .callTime run₈ rfl trivial rfl
  have run₁₀ := step .return_ run₉ rfl trivial rfl
  obtain ⟨cells, owner, -, -, -, -, counts, -⟩ := callbacks_runs run₁₀
  exact ⟨_, run₁₀, rfl, fun reg inside live idle => (counts reg inside live).2 idle⟩

end Ghdl.Callbacks
