import Ghdl.Grt.Signals
import Ghdl.Linked.Backed
import Ghdl.Linked.Family
import Ghdl.System.Fallible
import Mathlib.Data.List.Induction

/-!
# The cells of event lists

The event list of a signal is made of `Action_List` cells. Those of sensitized processes are put on it
during elaboration; those of wait statements are put in front of them, are also chained per process, and
go to a list of unused cells when the wait statement ends. A cell of a wait statement is doubly linked, so
that it can be taken out of the event list wherever it is.
-/

namespace Ghdl.Grt

open Fallible Linked Function

/-- An `Action_List_Acc` that is not null. -/
abbrev ActionPtr := Nat

/-- The ways a call ends without returning. -/
inductive ActionError where
  /-- A `pragma Assert` fails. -/
  | assertion
  /-- The iteration bound of a loop's translation is used up. -/
  | loopBound
  deriving DecidableEq, Repr

/-- The `Action_List` cells, and the pointers to them. -/
structure Actions where
  /-- The number of cells that were allocated. -/
  count : Nat
  /-- `Dynamic`. -/
  dynamic : ActionPtr → Bool
  /-- `Next`. -/
  next : ActionPtr → Option ActionPtr
  /-- `Proc`. -/
  proc : ActionPtr → ProcId
  /-- `Prev`, of a dynamic cell. -/
  prev : ActionPtr → Option ActionPtr
  /-- `Sig`, of a dynamic cell. -/
  sig : ActionPtr → SignalId
  /-- `Chain`, of a dynamic cell. -/
  chain : ActionPtr → Option ActionPtr
  /-- `Sig.Event_List`. -/
  eventList : SignalId → Option ActionPtr
  /-- `Proc.Sensitivity`. -/
  sensitivity : ProcId → Option ActionPtr
  /-- `Old_Action_List`. -/
  oldActionList : Option ActionPtr

namespace Actions

/-- No cell is allocated at first. -/
def start : Actions where
  count := 0
  dynamic _ := false
  next _ := none
  proc _ := 0
  prev _ := none
  sig _ := 0
  chain _ := none
  eventList _ := none
  sensitivity _ := none
  oldActionList := none

/-- `Resume_Process_If_Event`: the process is sensitive to the signal for good. -/
def resumeProcessIfEvent (s : Actions) (sig : SignalId) (proc : ProcId) : Actions :=
  { s with
    count := s.count + 1
    dynamic := update s.dynamic s.count false
    next := update s.next s.count (s.eventList sig)
    proc := update s.proc s.count proc
    eventList := update s.eventList sig (some s.count) }

/-- The cell for a call of `Ghdl_Process_Wait_Add_Sensitivity`: an unused one, or a new one. -/
def allocate (s : Actions) : Except ActionError (ActionPtr × Actions) :=
  match s.oldActionList with
  | none => .ok (s.count, { s with count := s.count + 1 })
  | some el =>
    if s.dynamic el then .ok (el, { s with oldActionList := s.next el }) else .error .assertion

/-- Put EL on SIG event list, and on PROC sensitivity list. -/
def insert (s : Actions) (proc : ProcId) (sig : SignalId) (el : ActionPtr) : Actions :=
  let dynamic := update s.dynamic el true
  { s with
    dynamic
    next := update s.next el (s.eventList sig)
    proc := update s.proc el proc
    prev := linkBack dynamic (update s.prev el none) (s.eventList sig) (some el)
    sig := update s.sig el sig
    chain := update s.chain el (s.sensitivity proc)
    eventList := update s.eventList sig (some el)
    sensitivity := update s.sensitivity proc (some el) }

/-- `Ghdl_Process_Wait_Add_Sensitivity`. -/
def waitAddSensitivity (s : Actions) (proc : ProcId) (sig : SignalId) : Except ActionError Actions := do
  let allocated ← s.allocate
  .ok (allocated.2.insert proc sig allocated.1)

/-- What pointed to EL points to the cell after it. -/
def unlinkNext (s : Actions) (el : ActionPtr) : Except ActionError Actions :=
  match s.prev el with
  | none => .ok { s with eventList := update s.eventList (s.sig el) (s.next el) }
  | some b =>
    if s.dynamic b then .ok { s with next := update s.next b (s.next el) }
    else .error .assertion

/-- Remove EL from signal Event_List, and move it to the recycle list. -/
def remove (s : Actions) (proc : ProcId) (el : ActionPtr) : Except ActionError Actions :=
  if s.proc el ≠ proc ∨ s.dynamic el = false then .error .assertion
  else do
    let s ← s.unlinkNext el
    .ok { s with
      prev := linkBack s.dynamic s.prev (s.next el) (s.prev el)
      next := update s.next el s.oldActionList
      oldActionList := some el }

/-- The loop of `Ghdl_Process_Wait_Close`. -/
def closeFrom : Nat → Actions → ProcId → Option ActionPtr → Except ActionError Actions
  | _, s, _, none => .ok s
  | 0, _, _, some _ => .error .loopBound
  | fuel + 1, s, proc, some el => do
    let removed ← s.remove proc el
    closeFrom fuel removed proc (s.chain el)

/-- `Ghdl_Process_Wait_Close`, on the action lists. The loop goes through different cells. -/
def waitClose (s : Actions) (proc : ProcId) : Except ActionError Actions :=
  closeFrom s.count { s with sensitivity := update s.sensitivity proc none } proc
    (s.sensitivity proc)

end Actions

/-- A call of a wait statement of a process. -/
inductive WaitCall where
  /-- `Ghdl_Process_Wait_Add_Sensitivity`. -/
  | addSensitivity (proc : ProcId) (sig : SignalId)
  /-- `Ghdl_Process_Wait_Close`. -/
  | close (proc : ProcId)
  deriving DecidableEq, Repr

namespace WaitCall

/-- The process that waits. -/
def proc : WaitCall → ProcId
  | .addSensitivity proc _ => proc
  | .close proc => proc

/-- A call, by the code. -/
def step (s : Actions) : WaitCall → Except ActionError Actions
  | .addSensitivity proc sig => s.waitAddSensitivity proc sig
  | .close proc => s.waitClose proc

/-- What a call does to the event lists as lists of processes: those that wait come first, and each goes
when its wait statement ends. -/
def lists (lists : SignalId → List ActionCell) : WaitCall → SignalId → List ActionCell
  | .addSensitivity proc sig => update lists sig (⟨true, proc⟩ :: lists sig)
  | .close proc => fun sig => (lists sig).filter (· ≠ ⟨true, proc⟩)

end WaitCall

namespace Actions

/-- Elaboration, and then calls of wait statements in any order. -/
def run (s : Actions) (calls : List WaitCall) : Except ActionError Actions := calls.foldlM WaitCall.step s

/-- The action lists after elaboration. -/
def elaborate (static : List (SignalId × ProcId)) : Actions :=
  static.foldl (fun s entry => s.resumeProcessIfEvent entry.1 entry.2) start

/-- The links of the allocated cells. -/
def linksOf (count : Nat) (next : ActionPtr → Option ActionPtr) (a : ActionPtr) : Option (Option ActionPtr) :=
  if a < count then some (next a) else none

/-- The heads of the event lists, and that of the unused cells. -/
def head (s : Actions) : Option SignalId → Option ActionPtr
  | none => s.oldActionList
  | some sig => s.eventList sig

/-- The process of a cell, and whether it waits. -/
def entry (s : Actions) (a : ActionPtr) : ActionCell := ⟨s.dynamic a, s.proc a⟩

/-- Each allocated cell is on one event list or unused. The event lists hold the cells of wait statements
first, doubly linked, and these are the ones that are chained to their processes. -/
structure Shape (s : Actions) (links : ActionPtr → Option (Option ActionPtr))
    (chainHead : ProcId → Option ActionPtr) (cells : Option SignalId → List ActionPtr)
    (chains : ProcId → List ActionPtr) : Prop where
  family : Family links s.head cells
  unused : ∀ a ∈ cells none, s.dynamic a = true
  backed : ∀ sig, Backed s.dynamic s.prev none (cells (some sig))
  signal : ∀ sig, ∀ a ∈ cells (some sig), s.dynamic a = true → s.sig a = sig
  chain : ∀ p, Segment (fun a => some (s.chain a)) (chainHead p) (chains p) none
  chained : ∀ p a, a ∈ chains p ↔ (∃ sig, a ∈ cells (some sig)) ∧ s.dynamic a = true ∧ s.proc a = p

theorem start_shape : Shape start (linksOf start.count start.next) start.sensitivity (fun _ => []) (fun _ => []) where
  family := ⟨fun i => by cases i <;> rfl, fun _ _ _ _ inside => absurd inside List.not_mem_nil,
    fun _ linked => absurd rfl linked⟩
  unused _ inside := absurd inside List.not_mem_nil
  backed _ := trivial
  signal _ _ inside := absurd inside List.not_mem_nil
  chain _ := rfl
  chained _ _ := by simp

variable {s : Actions} {links : ActionPtr → Option (Option ActionPtr)}
  {chainHead : ProcId → Option ActionPtr} {cells : Option SignalId → List ActionPtr}
  {chains : ProcId → List ActionPtr}

theorem linksOf_update {count : Nat} {next : ActionPtr → Option ActionPtr} {a : ActionPtr}
    (allocated : a < count) (link : Option ActionPtr) :
    linksOf count (update next a link) = update (linksOf count next) a (some link) := by
  funext b
  unfold linksOf
  by_cases same : b = a
  · subst same
    rw [update_self, update_self, if_pos allocated]
  · rw [update_of_ne same, update_of_ne same]

theorem linksOf_allocate (count : Nat) (next : ActionPtr → Option ActionPtr) (link : Option ActionPtr) :
    linksOf (count + 1) (update next count link) = update (linksOf count next) count (some link) := by
  funext b
  unfold linksOf
  by_cases same : b = count
  · subst same
    rw [update_self, update_self, if_pos (Nat.lt_succ_self b)]
  · rw [update_of_ne same, update_of_ne same]
    have order : b < count + 1 ↔ b < count :=
      ⟨fun less => Nat.lt_of_le_of_ne (Nat.le_of_lt_succ less) same, Nat.lt_succ_of_lt⟩
    simp only [order]

theorem Shape.lt_count (shape : Shape s (linksOf s.count s.next) chainHead cells chains)
    {i : Option SignalId} {a : ActionPtr} (inside : a ∈ cells i) : a < s.count := by
  by_contra outside
  exact shape.family.linked_iff.mpr ⟨i, inside⟩ (if_neg outside)

theorem Shape.fresh (shape : Shape s (linksOf s.count s.next) chainHead cells chains)
    (i : Option SignalId) : s.count ∉ cells i :=
  fun inside => absurd (shape.lt_count inside) (Nat.lt_irrefl _)

theorem resumeProcessIfEvent_shape (shape : Shape s (linksOf s.count s.next) chainHead cells fun _ => [])
    (static : ∀ sig, ∀ a ∈ cells (some sig), s.dynamic a = false) (sig : SignalId) (proc : ProcId) :
    Shape (s.resumeProcessIfEvent sig proc)
        (linksOf (s.resumeProcessIfEvent sig proc).count (s.resumeProcessIfEvent sig proc).next) chainHead
        (update cells (some sig) (s.count :: cells (some sig))) (fun _ => []) ∧
      ∀ sig', ∀ a ∈ update cells (some sig) (s.count :: cells (some sig)) (some sig'),
        (s.resumeProcessIfEvent sig proc).dynamic a = false := by
  have mark : ∀ a, (s.resumeProcessIfEvent sig proc).dynamic a = update s.dynamic s.count false a := fun _ => rfl
  have still : ∀ sig', ∀ a ∈ update cells (some sig) (s.count :: cells (some sig)) (some sig'),
      (s.resumeProcessIfEvent sig proc).dynamic a = false := by
    intro sig' a inside
    rw [mark]
    by_cases new : a = s.count
    · rw [new, update_self]
    rw [update_of_ne new]
    refine static sig' a ?_
    by_cases same : sig' = sig
    · subst same
      rw [update_self] at inside
      exact (List.mem_cons.mp inside).resolve_left new
    · rwa [update_of_ne (fun is => same (Option.some.inj is))] at inside
  refine ⟨⟨?_, ?_, fun sig' => .unmarked (still sig'), ?_, shape.chain, ?_⟩, still⟩
  · have heads : (s.resumeProcessIfEvent sig proc).head =
        update s.head (some sig) (some s.count) := by
      funext i
      cases i with
      | none => rfl
      | some sig' =>
        show update s.eventList sig (some s.count) sig' = _
        by_cases same : sig' = sig
        · subst same
          rw [update_self, update_self]
        · rw [update_of_ne same, update_of_ne fun is => same (Option.some.inj is)]
          rfl
    rw [heads]
    show Family (linksOf (s.count + 1) (update s.next s.count (s.eventList sig))) _ _
    rw [linksOf_allocate]
    exact shape.family.push (if_neg (Nat.lt_irrefl _)) (some sig)
  · intro a inside
    rw [update_of_ne (Option.some_ne_none sig).symm] at inside
    rw [mark, update_of_ne (ne_of_mem_of_not_mem inside (shape.fresh none))]
    exact shape.unused a inside
  · exact fun sig' a inside dynamic => absurd (dynamic.symm.trans (still sig' a inside)) nofun
  · intro p a
    refine iff_of_false List.not_mem_nil ?_
    rintro ⟨⟨sig', inside⟩, dynamic, -⟩
    exact absurd (dynamic.symm.trans (still sig' a inside)) nofun

theorem allocate_shape (shape : Shape s (linksOf s.count s.next) chainHead cells chains) :
    ∃ el s' unused, s.allocate = .ok (el, s') ∧ el < s'.count ∧
      Shape s' (update (linksOf s'.count s'.next) el none) chainHead (update cells none unused) chains ∧
      s'.sensitivity = s.sensitivity ∧ s'.eventList = s.eventList ∧ s'.entry = s.entry := by
  cases old : s.oldActionList with
  | none =>
    refine ⟨s.count, { s with count := s.count + 1 }, cells none, ?_, Nat.lt_succ_self _, ?_, rfl, rfl, rfl⟩
    · unfold allocate
      rw [old]
    rw [Function.update_eq_self]
    have links : update (linksOf (s.count + 1) s.next) s.count none = linksOf s.count s.next := by
      funext a
      by_cases same : a = s.count
      · subst same
        rw [update_self]
        exact (if_neg (Nat.lt_irrefl _)).symm
      rw [update_of_ne same]
      unfold linksOf
      have order : a < s.count + 1 ↔ a < s.count :=
        ⟨fun less => Nat.lt_of_le_of_ne (Nat.le_of_lt_succ less) same, Nat.lt_succ_of_lt⟩
      simp only [order]
    refine ⟨?_, shape.unused, shape.backed, shape.signal, shape.chain, shape.chained⟩
    rw [links]
    exact shape.family.congr_head fun i => by cases i <;> rfl
  | some el =>
    obtain ⟨rest, front⟩ : ∃ rest, cells none = el :: rest := by
      have path := shape.family.path none
      cases list : cells none with
      | nil =>
        rw [list] at path
        exact absurd (old.symm.trans path) nofun
      | cons a rest =>
        rw [list] at path
        exact ⟨rest, by rw [Option.some.inj (old.symm.trans path.1)]⟩
    have inside : el ∈ cells none := front ▸ List.mem_cons_self
    have dynamic := shape.unused el inside
    refine ⟨el, { s with oldActionList := s.next el }, rest, ?_, shape.lt_count inside, ?_, rfl, rfl, rfl⟩
    · unfold allocate
      rw [old]
      exact if_pos dynamic
    obtain ⟨r, link, family⟩ := shape.family.pop front
    obtain rfl : s.next el = r := by
      rw [linksOf, if_pos (shape.lt_count inside)] at link
      exact Option.some.inj link
    refine ⟨family.congr_head fun i => ?_, fun a member => ?_, fun sig => ?_, fun sig => ?_, shape.chain,
      fun p a => ?_⟩
    · cases i with
      | none => rw [update_self]; rfl
      | some sig => rw [update_of_ne (Option.some_ne_none sig)]; rfl
    · rw [update_self] at member
      exact shape.unused a (front ▸ List.mem_cons_of_mem el member)
    · rw [update_of_ne (Option.some_ne_none sig)]
      exact shape.backed sig
    · rw [update_of_ne (Option.some_ne_none sig)]
      exact shape.signal sig
    · simp only [update_of_ne (Option.some_ne_none _)]
      exact shape.chained p a

theorem insert_shape {el : ActionPtr} (allocated : el < s.count)
    (shape : Shape s (update (linksOf s.count s.next) el none) s.sensitivity cells chains)
    (proc : ProcId) (sig : SignalId) :
    Shape (s.insert proc sig el) (linksOf (s.insert proc sig el).count (s.insert proc sig el).next)
      (s.insert proc sig el).sensitivity (update cells (some sig) (el :: cells (some sig)))
      (update chains proc (el :: chains proc)) := by
  have outside : ∀ i, el ∉ cells i := shape.family.not_mem (update_self _ _ _)
  have marked : ∀ i, ∀ a ∈ cells i, update s.dynamic el true a = s.dynamic a := fun i a inside =>
    update_of_ne (ne_of_mem_of_not_mem inside (outside i)) _ _
  refine ⟨?_, ?_, fun sig' => ?_, fun sig' a inside dynamic => ?_, fun p => ?_, fun p a => ?_⟩
  · have heads : (s.insert proc sig el).head = update s.head (some sig) (some el) := by
      funext i
      cases i with
      | none => rfl
      | some sig' =>
        show update s.eventList sig (some el) sig' = _
        by_cases same : sig' = sig
        · subst same
          rw [update_self, update_self]
        · rw [update_of_ne same, update_of_ne fun is => same (Option.some.inj is)]
          rfl
    have pushed := shape.family.push (update_self _ _ _) (some sig)
    rw [Function.update_idem] at pushed
    rw [heads]
    show Family (linksOf s.count (update s.next el (s.eventList sig))) _ _
    rw [linksOf_update allocated]
    exact pushed
  · intro a inside
    rw [update_of_ne (Option.some_ne_none sig).symm] at inside
    exact (marked none a inside).trans (shape.unused a inside)
  · have first : s.eventList sig = (cells (some sig)).head? := shape.family.head_eq (some sig)
    show Backed (update s.dynamic el true) (linkBack (update s.dynamic el true)
      (update s.prev el none) (s.eventList sig) (some el)) none _
    rw [first]
    by_cases same : sig' = sig
    · subst same
      rw [update_self]
      refine Backed.cons ?_ (List.nodup_cons.mpr ⟨outside _, shape.family.nodup _⟩)
        (update_self _ _ _) (update_self _ _ _)
      exact (shape.backed sig').congr (marked _) fun a inside =>
        update_of_ne (ne_of_mem_of_not_mem inside (outside _)) _ _
    · have apart : (some sig' : Option SignalId) ≠ some sig := fun is => same (Option.some.inj is)
      rw [update_of_ne apart]
      refine (shape.backed sig').congr (marked _) fun a inside => ?_
      rw [linkBack_of_ne, update_of_ne (ne_of_mem_of_not_mem inside (outside _))]
      exact fun front => shape.family.disjoint _ _ apart a inside (List.mem_of_mem_head? front)
  · show update s.sig el sig a = sig'
    by_cases new : a = el
    · rw [new, update_self]
      by_contra other
      have apart : (some sig' : Option SignalId) ≠ some sig := fun is => other (Option.some.inj is).symm
      rw [update_of_ne apart, new] at inside
      exact outside _ inside
    rw [update_of_ne new]
    have old : a ∈ cells (some sig') := by
      by_cases same : sig' = sig
      · subst same
        rw [update_self] at inside
        exact (List.mem_cons.mp inside).resolve_left new
      · rwa [update_of_ne fun is => same (Option.some.inj is)] at inside
    exact shape.signal sig' a old ((marked _ a old).symm.trans dynamic)
  · have unchained : el ∉ chains p := fun inside => by
      obtain ⟨⟨sig', member⟩, -⟩ := (shape.chained p el).mp inside
      exact outside _ member
    have kept : ∀ a ∈ chains p, some (update s.chain el (s.sensitivity proc) a) = some (s.chain a) :=
      fun a inside => by rw [update_of_ne (ne_of_mem_of_not_mem inside unchained)]
    show Segment (fun a => some (update s.chain el (s.sensitivity proc) a))
      (update s.sensitivity proc (some el) p) _ none
    by_cases same : p = proc
    · subst same
      rw [update_self, update_self]
      exact ⟨rfl, _, congrArg some (update_self _ _ _), (Segment.congr kept).mpr (shape.chain p)⟩
    · rw [update_of_ne same, update_of_ne same]
      exact (Segment.congr kept).mpr (shape.chain p)
  · have onList : (∃ sig', a ∈ update cells (some sig) (el :: cells (some sig)) (some sig')) ↔
        a = el ∨ ∃ sig', a ∈ cells (some sig') := by
      constructor
      · rintro ⟨sig', inside⟩
        by_cases same : sig' = sig
        · subst same
          rw [update_self] at inside
          exact (List.mem_cons.mp inside).imp id fun old => ⟨sig', old⟩
        · rw [update_of_ne fun is => same (Option.some.inj is)] at inside
          exact .inr ⟨sig', inside⟩
      · rintro (rfl | ⟨sig', inside⟩)
        · exact ⟨sig, by rw [update_self]; exact List.mem_cons_self⟩
        · refine ⟨sig', ?_⟩
          by_cases same : sig' = sig
          · subst same
            rw [update_self]
            exact List.mem_cons_of_mem el inside
          · rwa [update_of_ne fun is => same (Option.some.inj is)]
    have chained := shape.chained p a
    rw [onList]
    show _ ↔ _ ∧ update s.dynamic el true a = true ∧ update s.proc el proc a = p
    by_cases new : a = el
    · subst new
      have unchained : a ∉ chains p := fun inside => by
        obtain ⟨⟨sig', member⟩, -⟩ := chained.mp inside
        exact outside _ member
      rw [update_self, update_self]
      by_cases same : p = proc
      · subst same
        rw [update_self]
        exact iff_of_true List.mem_cons_self ⟨Or.inl rfl, rfl, rfl⟩
      · rw [update_of_ne same]
        exact iff_of_false unchained fun is => same is.2.2.symm
    · rw [update_of_ne new, update_of_ne new, or_iff_right new, ← chained]
      by_cases same : p = proc
      · subst same
        rw [update_self, List.mem_cons, or_iff_right new]
      · rw [update_of_ne same]

theorem unlinkNext_family {el : ActionPtr} {sig : SignalId} {l m : List ActionPtr}
    (shape : Shape s (linksOf s.count s.next) chainHead cells chains)
    (split : cells (some sig) = l ++ el :: m) (dynamic : s.dynamic el = true) :
    ∃ e n, s.unlinkNext el = .ok { s with eventList := e, next := n } ∧ n el = s.next el ∧
      Family (update (linksOf s.count n) el none) ({ s with eventList := e } : Actions).head
        (update cells (some sig) (l ++ m)) := by
  have inside : el ∈ cells (some sig) := split ▸ List.mem_append_right l List.mem_cons_self
  have isSig := shape.signal sig el inside dynamic
  have backed := shape.backed sig
  rw [split] at backed
  have allocated := shape.lt_count inside
  unfold unlinkNext
  cases l using List.reverseRecOn with
  | nil =>
    rw [backed.prev_first dynamic, isSig]
    obtain ⟨r, link, family⟩ := shape.family.pop split
    obtain rfl : s.next el = r := by
      rw [linksOf, if_pos allocated] at link
      exact Option.some.inj link
    refine ⟨_, _, rfl, rfl, family.congr_head fun i => ?_⟩
    cases i with
    | none => rfl
    | some sig' =>
      show update s.eventList sig (s.next el) sig' = _
      by_cases same : sig' = sig
      · subst same
        rw [update_self, update_self]
      · rw [update_of_ne same, update_of_ne fun is => same (Option.some.inj is)]
        rfl
  | append_singleton l b =>
    rw [List.append_assoc, List.singleton_append] at split backed
    obtain ⟨before, mark⟩ := backed.prev_after dynamic
    rw [before]
    dsimp only
    rw [if_pos mark]
    have different : el ≠ b := by
      have distinct := shape.family.nodup (some sig)
      rw [split] at distinct
      have after := (List.nodup_append.mp distinct).2.1
      exact fun same => (List.nodup_cons.mp after).1 (same ▸ List.mem_cons_self)
    obtain ⟨r, link, family⟩ := shape.family.unlink split
    obtain rfl : s.next el = r := by
      rw [linksOf, if_pos allocated] at link
      exact Option.some.inj link
    refine ⟨s.eventList, _, rfl, update_of_ne different _ _, ?_⟩
    have insideB : b ∈ cells (some sig) := split ▸ List.mem_append_right l List.mem_cons_self
    rw [linksOf_update (shape.lt_count insideB), List.append_assoc]
    exact family.congr_head fun i => by cases i <;> rfl

/-- The lists when a cell has become unused. -/
def removeCell (cells : Option SignalId → List ActionPtr) (el : ActionPtr) : Option SignalId → List ActionPtr
  | none => el :: cells none
  | some sig => (cells (some sig)).filter (· ≠ el)

theorem remove_shape {p : ProcId} {el : ActionPtr} {rest : List ActionPtr}
    (shape : Shape s (linksOf s.count s.next) chainHead cells chains) (chain : chains p = el :: rest) :
    ∃ s', s.remove p el = .ok s' ∧
      Shape s' (linksOf s'.count s'.next) (update chainHead p (s.chain el)) (removeCell cells el)
        (update chains p rest) ∧ s'.sensitivity = s.sensitivity ∧ s'.entry = s.entry := by
  obtain ⟨⟨sig, inside⟩, dynamic, proc⟩ := (shape.chained p el).mp (chain ▸ List.mem_cons_self)
  obtain ⟨l, m, split⟩ := List.append_of_mem inside
  have allocated := shape.lt_count inside
  have distinct := shape.family.nodup (some sig)
  rw [split] at distinct
  obtain ⟨e, n, unlinked, same, family⟩ := unlinkNext_family shape split dynamic
  have after : s.next el = m.head? := by
    have path := shape.family.path (some sig)
    rw [split] at path
    obtain ⟨r, -, -, t, link, path⟩ := Segment.append_iff.mp path
    rw [linksOf, if_pos allocated, Option.some.injEq] at link
    rw [link]
    exact path.start_eq
  have apart : ∀ sig', sig' ≠ sig → el ∉ cells (some sig') := fun sig' other =>
    shape.family.disjoint _ _ (fun is => other (Option.some.inj is).symm) el inside
  have others : ∀ sig', sig' ≠ sig → removeCell cells el (some sig') = cells (some sig') := fun sig' other =>
    List.filter_eq_self.mpr fun a member => by simpa using ne_of_mem_of_not_mem member (apart sig' other)
  have here : removeCell cells el (some sig) = l ++ m := by
    show (cells (some sig)).filter (· ≠ el) = l ++ m
    have freshL : el ∉ l := fun member => (List.nodup_append.mp distinct).2.2 el member el List.mem_cons_self rfl
    have freshM : el ∉ m := (List.nodup_cons.mp (List.nodup_append.mp distinct).2.1).1
    rw [split, List.filter_append, List.filter_cons_of_neg (by simp),
      List.filter_eq_self.mpr fun a member => by simpa using ne_of_mem_of_not_mem member freshL,
      List.filter_eq_self.mpr fun a member => by simpa using ne_of_mem_of_not_mem member freshM]
  have kept : ∀ sig' a, a ∈ removeCell cells el (some sig') ↔ a ∈ cells (some sig') ∧ a ≠ el := fun sig' a => by
    show a ∈ (cells (some sig')).filter (· ≠ el) ↔ _
    rw [List.mem_filter, decide_eq_true_eq]
  have removed : s.remove p el = .ok { s with
      eventList := e
      prev := linkBack s.dynamic s.prev (s.next el) (s.prev el)
      next := update n el s.oldActionList
      oldActionList := some el } := by
    unfold remove
    rw [if_neg (by simp [proc, dynamic]), unlinked]
    show Except.ok _ = _
    dsimp only
    rw [same]
  refine ⟨_, removed, ⟨?_, ?_, fun sig' => ?_, fun sig' a member => ?_, fun q => ?_, fun q a => ?_⟩, rfl, rfl⟩
  · have pushed := family.push (update_self _ _ _) none
    rw [Function.update_idem] at pushed
    dsimp only
    rw [linksOf_update allocated]
    have lists : removeCell cells el = update (update cells (some sig) (l ++ m)) none
        (el :: update cells (some sig) (l ++ m) none) := by
      funext i
      cases i with
      | none =>
        rw [update_self, update_of_ne (Option.some_ne_none sig).symm]
        rfl
      | some sig' =>
        rw [update_of_ne (Option.some_ne_none sig')]
        by_cases other : sig' = sig
        · rw [other, update_self, here]
        · rw [update_of_ne fun is => other (Option.some.inj is), others sig' other]
    rw [lists]
    exact pushed.congr_head fun i => by
      cases i with
      | none => rw [update_self]; rfl
      | some sig' => rw [update_of_ne (Option.some_ne_none sig')]; rfl
  · intro a member
    rcases List.mem_cons.mp member with rfl | member
    · exact dynamic
    · exact shape.unused a member
  · show Backed s.dynamic (linkBack s.dynamic s.prev (s.next el) (s.prev el)) none _
    rw [after]
    by_cases other : sig' = sig
    · rw [other, here]
      exact (split ▸ shape.backed sig).remove distinct dynamic
    rw [others sig' other]
    refine (shape.backed sig').congr (fun _ _ => rfl) fun a member => linkBack_of_ne fun first => ?_
    have inM : a ∈ cells (some sig) := split ▸
      List.mem_append_right l (List.mem_cons_of_mem el (List.mem_of_mem_head? first))
    exact shape.family.disjoint _ _ (fun is => other (Option.some.inj is)) a member inM
  · exact shape.signal sig' a ((kept sig' a).mp member).1
  · show Segment (fun a => some (s.chain a)) _ _ none
    by_cases same' : q = p
    · subst same'
      rw [update_self, update_self]
      have path := shape.chain q
      rw [chain] at path
      obtain ⟨-, r, link, path⟩ := path
      exact Option.some.inj link ▸ path
    · rw [update_of_ne same', update_of_ne same']
      exact shape.chain q
  · have chained := shape.chained q a
    have onList : (∃ sig', a ∈ removeCell cells el (some sig')) ↔ (∃ sig', a ∈ cells (some sig')) ∧ a ≠ el := by
      simp only [kept, exists_and_right]
    rw [onList]
    show _ ↔ _ ∧ s.dynamic a = true ∧ s.proc a = q
    by_cases same' : q = p
    · subst same'
      have unique : el ∉ rest := by
        have path := (shape.chain q).nodup
        rw [chain] at path
        exact (List.nodup_cons.mp path).1
      rw [update_self]
      rw [chain, List.mem_cons] at chained
      constructor
      · intro member
        have different := ne_of_mem_of_not_mem member unique
        obtain ⟨listed, facts⟩ := chained.mp (Or.inr member)
        exact ⟨⟨listed, different⟩, facts⟩
      · rintro ⟨⟨listed, different⟩, facts⟩
        exact (chained.mpr ⟨listed, facts⟩).resolve_left different
    · rw [update_of_ne same', chained]
      constructor
      · rintro ⟨listed, facts⟩
        exact ⟨⟨listed, fun is => same' (facts.2.symm.trans (is ▸ proc))⟩, facts⟩
      · exact fun ⟨⟨listed, _⟩, facts⟩ => ⟨listed, facts⟩

theorem closeFrom_shape {p : ProcId} {rest : List ActionPtr} {fuel : Nat}
    (shape : Shape s (linksOf s.count s.next) chainHead cells chains) (chain : chains p = rest)
    (enough : rest.length ≤ fuel) : ∃ s' cells', closeFrom fuel s p (chainHead p) = .ok s' ∧
      Shape s' (linksOf s'.count s'.next) (update chainHead p none) cells' (update chains p []) ∧
      s'.sensitivity = s.sensitivity ∧ s'.entry = s.entry ∧
      ∀ sig, cells' (some sig) = (cells (some sig)).filter (· ∉ rest) := by
  induction rest generalizing s chainHead cells chains fuel with
  | nil =>
    have path := shape.chain p
    rw [chain] at path
    have first : chainHead p = none := path
    refine ⟨s, cells, ?_, ?_, rfl, rfl, fun sig => by simp⟩
    · rw [first]
      cases fuel <;> rfl
    · rw [← first, ← chain, Function.update_eq_self, Function.update_eq_self]
      exact shape
  | cons el rest ih =>
    have path := shape.chain p
    rw [chain] at path
    have first : chainHead p = some el := path.1
    obtain ⟨fuel, rfl⟩ := fuel_succ enough
    obtain ⟨s₁, removed, shape₁, sensitivity₁, entry₁⟩ := remove_shape shape chain
    obtain ⟨s', cells', closed, shape', sensitivity', entry', lists⟩ :=
      ih shape₁ (update_self _ _ _) (Nat.le_of_succ_le_succ enough)
    rw [update_self] at closed
    rw [Function.update_idem, Function.update_idem] at shape'
    refine ⟨s', cells', ?_, shape', sensitivity'.trans sensitivity₁, entry'.trans entry₁, fun sig => ?_⟩
    · rw [first, closeFrom, bind_ok]
      exact ⟨s₁, removed, closed⟩
    rw [lists]
    show ((cells (some sig)).filter (· ≠ el)).filter (· ∉ rest) = _
    rw [List.filter_filter]
    refine List.filter_congr fun a _ => ?_
    rw [← Bool.decide_and, decide_eq_decide, List.mem_cons]
    tauto

/-- The event lists as lists of processes. -/
def Represents (s : Actions) (lists : SignalId → List ActionCell) : Prop :=
  ∃ cells chains, Shape s (linksOf s.count s.next) s.sensitivity cells chains ∧
    ∀ sig, (cells (some sig)).map s.entry = lists sig

variable {lists : SignalId → List ActionCell}

section

variable (represents : Represents s lists)
include represents

theorem waitAddSensitivity_represents (proc : ProcId) (sig : SignalId) :
    ∃ s', s.waitAddSensitivity proc sig = .ok s' ∧ Represents s' ((WaitCall.addSensitivity proc sig).lists lists) := by
  obtain ⟨cells, chains, shape, entries⟩ := represents
  obtain ⟨el, s₁, unused, allocated, bounded, shape₁, sensitivity, -, entry⟩ := allocate_shape shape
  rw [← sensitivity] at shape₁
  have inserted := insert_shape bounded shape₁ proc sig
  have outside : ∀ sig', el ∉ cells (some sig') := fun sig' => by
    have absent := shape₁.family.not_mem (update_self _ _ _) (some sig')
    rwa [update_of_ne (Option.some_ne_none sig')] at absent
  have kept : ∀ sig', (cells (some sig')).map (s₁.insert proc sig el).entry = lists sig' := fun sig' => by
    rw [← entries, ← entry]
    refine List.map_congr_left fun a inside => ?_
    have different := ne_of_mem_of_not_mem inside (outside sig')
    show ActionCell.mk (update s₁.dynamic el true a) (update s₁.proc el proc a) = _
    rw [update_of_ne different, update_of_ne different]
    rfl
  refine ⟨s₁.insert proc sig el, ?_, _, _, inserted, fun sig' => ?_⟩
  · unfold waitAddSensitivity
    rw [allocated]
    rfl
  show _ = update lists sig (⟨true, proc⟩ :: lists sig) sig'
  by_cases same : sig' = sig
  · subst same
    have new : (s₁.insert proc sig' el).entry el = ⟨true, proc⟩ := by
      show ActionCell.mk (update s₁.dynamic el true el) (update s₁.proc el proc el) = _
      rw [update_self, update_self]
    rw [update_self, update_self, List.map_cons, new, update_of_ne (Option.some_ne_none sig'), kept]
  · rw [update_of_ne fun is => same (Option.some.inj is), update_of_ne same,
      update_of_ne (Option.some_ne_none sig'), kept]

theorem waitClose_represents (proc : ProcId) :
    ∃ s', s.waitClose proc = .ok s' ∧ Represents s' ((WaitCall.close proc).lists lists) ∧
      s'.sensitivity proc = none := by
  obtain ⟨cells, chains, shape, entries⟩ := represents
  have enough : (chains proc).length ≤ s.count := (shape.chain proc).length_le fun a inside => by
    obtain ⟨⟨sig, member⟩, -⟩ := (shape.chained proc a).mp inside
    exact shape.lt_count member
  have shape₀ : Shape { s with sensitivity := update s.sensitivity proc none }
      (linksOf s.count s.next) s.sensitivity cells chains :=
    ⟨shape.family.congr_head fun i => by cases i <;> rfl, shape.unused, shape.backed, shape.signal,
      shape.chain, shape.chained⟩
  obtain ⟨s', cells', closed, shape', sensitivity, entry, removed⟩ := closeFrom_shape shape₀ rfl enough
  have cleared : s'.sensitivity = update s.sensitivity proc none := sensitivity
  refine ⟨s', closed, ⟨cells', _, cleared ▸ shape', fun sig => ?_⟩, ?_⟩
  · rw [removed, entry]
    show ((cells (some sig)).filter (· ∉ chains proc)).map s.entry = (lists sig).filter (· ≠ ⟨true, proc⟩)
    rw [← entries, List.filter_map]
    congr 1
    refine List.filter_congr fun a inside => ?_
    rw [Function.comp_apply, decide_eq_decide, not_iff_not, shape.chained proc a]
    constructor
    · intro ⟨_, dynamic, is⟩
      show ActionCell.mk _ _ = _
      rw [dynamic, is]
    · exact fun is => ⟨⟨sig, inside⟩, congrArg ActionCell.dynamic is, congrArg ActionCell.proc is⟩
  · rw [cleared, update_self]

theorem step_represents (call : WaitCall) :
    ∃ s', call.step s = .ok s' ∧ Represents s' (call.lists lists) := by
  cases call with
  | addSensitivity proc sig => exact waitAddSensitivity_represents represents proc sig
  | close proc =>
    obtain ⟨s', closed, represents', -⟩ := waitClose_represents represents proc
    exact ⟨s', closed, represents'⟩

theorem run_represents (calls : List WaitCall) :
    ∃ s', s.run calls = .ok s' ∧ Represents s' (calls.foldl WaitCall.lists lists) := by
  induction calls generalizing s lists with
  | nil => exact ⟨s, rfl, represents⟩
  | cons call calls ih =>
    obtain ⟨s₁, stepped, represents₁⟩ := step_represents represents call
    obtain ⟨s', ran, represents'⟩ := ih represents₁
    refine ⟨s', ?_, represents'⟩
    unfold run at ran ⊢
    rw [List.foldlM_cons, bind_ok]
    exact ⟨s₁, stepped, ran⟩

end

theorem elaborate_represents (static : List (SignalId × ProcId)) : ∃ lists, Represents (elaborate static) lists := by
  suffices shaped : ∃ cells, Shape (elaborate static) (linksOf (elaborate static).count (elaborate static).next)
      (elaborate static).sensitivity cells (fun _ => []) ∧
      ∀ sig, ∀ a ∈ cells (some sig), (elaborate static).dynamic a = false by
    obtain ⟨cells, shape, -⟩ := shaped
    exact ⟨_, cells, _, shape, fun _ => rfl⟩
  induction static using List.reverseRecOn with
  | nil => exact ⟨_, start_shape, fun _ _ inside => absurd inside List.not_mem_nil⟩
  | append_singleton static entry ih =>
    have grown : elaborate (static ++ [entry]) = (elaborate static).resumeProcessIfEvent entry.1 entry.2 := List.foldl_append
    rw [grown]
    obtain ⟨cells, shape, still⟩ := ih
    obtain ⟨shape', still'⟩ := resumeProcessIfEvent_shape shape still entry.1 entry.2
    exact ⟨_, shape', still'⟩

theorem Represents.idle (represents : Represents s lists) {p : ProcId} (idle : s.sensitivity p = none)
    (sig : SignalId) : ⟨true, p⟩ ∉ lists sig := by
  obtain ⟨cells, chains, shape, entries⟩ := represents
  have path := shape.chain p
  have empty : chains p = [] := by
    have first := path.start_eq
    rw [idle] at first
    exact List.head?_eq_none_iff.mp first.symm
  rw [← entries]
  intro inside
  obtain ⟨a, member, is⟩ := List.mem_map.mp inside
  have chained := (shape.chained p a).mpr ⟨⟨sig, member⟩, congrArg ActionCell.dynamic is, congrArg ActionCell.proc is⟩
  rw [empty] at chained
  exact List.not_mem_nil chained

end Actions

namespace WaitCall

variable {lists lists' : SignalId → List ActionCell} {p : ProcId}

theorem lists_agree {call : WaitCall} (other : call.proc ≠ p)
    (agree : ∀ sig, (lists sig).filter (· ≠ ⟨true, p⟩) = (lists' sig).filter (· ≠ ⟨true, p⟩)) (sig : SignalId) :
    (call.lists lists sig).filter (· ≠ ⟨true, p⟩) = (call.lists lists' sig).filter (· ≠ ⟨true, p⟩) := by
  cases call with
  | addSensitivity q sig' =>
    show (update lists sig' _ sig).filter _ = (update lists' sig' _ sig).filter _
    by_cases same : sig = sig'
    · subst same
      rw [update_self, update_self, List.filter_cons, List.filter_cons, agree]
    · rw [update_of_ne same, update_of_ne same, agree]
  | close q =>
    show ((lists sig).filter (· ≠ ⟨true, q⟩)).filter _ = ((lists' sig).filter (· ≠ ⟨true, q⟩)).filter _
    rw [List.filter_comm, agree, List.filter_comm]

theorem lists_own {call : WaitCall} (own : call.proc = p) (sig : SignalId) :
    (call.lists lists sig).filter (· ≠ ⟨true, p⟩) = (lists sig).filter (· ≠ ⟨true, p⟩) := by
  subst own
  cases call with
  | addSensitivity q sig' =>
    show (update lists sig' _ sig).filter _ = _
    by_cases same : sig = sig'
    · subst same
      rw [update_self]
      exact List.filter_cons_of_neg (by simp [proc])
    · rw [update_of_ne same]
  | close q =>
    show ((lists sig).filter (· ≠ ⟨true, q⟩)).filter (· ≠ ⟨true, q⟩) = _
    rw [List.filter_filter]
    exact List.filter_congr fun cell _ => Bool.and_self _

theorem foldl_lists (calls : List WaitCall)
    (agree : ∀ sig, (lists sig).filter (· ≠ ⟨true, p⟩) = (lists' sig).filter (· ≠ ⟨true, p⟩)) (sig : SignalId) :
    (calls.foldl WaitCall.lists lists sig).filter (· ≠ ⟨true, p⟩) =
      ((calls.filter (·.proc ≠ p)).foldl WaitCall.lists lists' sig).filter (· ≠ ⟨true, p⟩) := by
  induction calls generalizing lists lists' with
  | nil => exact agree sig
  | cons call calls ih =>
    by_cases own : call.proc = p
    · rw [List.filter_cons_of_neg (by simpa using own), List.foldl_cons]
      exact ih fun sig => (lists_own own sig).trans (agree sig)
    · rw [List.filter_cons_of_pos (by simpa using own), List.foldl_cons, List.foldl_cons]
      exact ih (lists_agree own agree)

theorem not_mem_foldl (calls : List WaitCall) (others : ∀ call ∈ calls, call.proc ≠ p)
    (absent : ∀ sig, ⟨true, p⟩ ∉ lists sig) (sig : SignalId) : ⟨true, p⟩ ∉ calls.foldl WaitCall.lists lists sig := by
  induction calls generalizing lists with
  | nil => exact absent sig
  | cons call calls ih =>
    rw [List.forall_mem_cons] at others
    refine ih others.2 fun sig inside => absent sig ?_
    have different := others.1
    cases call with
    | addSensitivity q sig' =>
      change _ ∈ update lists sig' _ sig at inside
      by_cases same : sig = sig'
      · subst same
        rw [update_self] at inside
        refine (List.mem_cons.mp inside).resolve_left fun is => different ?_
        exact (congrArg ActionCell.proc is).symm
      · rwa [update_of_ne same] at inside
    | close q => exact (List.mem_filter.mp inside).1

end WaitCall

namespace Actions

/-- The cells of an event list. -/
def EventCells (s : Actions) (sig : SignalId) (cells : List ActionPtr) : Prop :=
  Segment (linksOf s.count s.next) (s.eventList sig) cells none

/-- The cells of the wait statement of a process. -/
def WaitCells (s : Actions) (p : ProcId) (cells : List ActionPtr) : Prop :=
  Segment (fun a => some (s.chain a)) (s.sensitivity p) cells none

/-- The unused cells. -/
def UnusedCells (s : Actions) (cells : List ActionPtr) : Prop :=
  Segment (linksOf s.count s.next) s.oldActionList cells none

/-- All lists end, and no unused cell is on another list. -/
def Separate (s : Actions) : Prop :=
  ∃ (events : SignalId → List ActionPtr) (waits : ProcId → List ActionPtr) (unused : List ActionPtr),
    (∀ sig, s.EventCells sig (events sig)) ∧ (∀ p, s.WaitCells p (waits p)) ∧
      s.UnusedCells unused ∧ ∀ a ∈ unused, (∀ sig, a ∉ events sig) ∧ ∀ p, a ∉ waits p

theorem Represents.separate {s : Actions} {lists : SignalId → List ActionCell} (represents : Represents s lists) :
    s.Separate := by
  obtain ⟨cells, chains, shape, -⟩ := represents
  refine ⟨fun sig => cells (some sig), chains, cells none, fun sig => shape.family.path (some sig),
    shape.chain, shape.family.path none, fun a inside => ?_⟩
  have apart : ∀ sig, a ∉ cells (some sig) := fun sig =>
    shape.family.disjoint _ _ (Option.some_ne_none sig).symm a inside
  refine ⟨apart, fun p chained => ?_⟩
  obtain ⟨⟨sig, member⟩, -⟩ := (shape.chained p a).mp chained
  exact apart sig member

/-- In every reachable state no unused cell is on another list. When a process that does not wait waits,
in any interleaving with calls of other processes, then at the end of its wait statement each event list
holds the processes that it holds when the other calls alone were made. -/
theorem wait_restores_event_lists (static : List (SignalId × ProcId)) (before during : List WaitCall) (p : ProcId) :
    ∃ s, (elaborate static).run before = .ok s ∧ s.Separate ∧
      (s.sensitivity p = none → ∃ s' s'', s.run (during ++ [.close p]) = .ok s' ∧
        s.run (during.filter (·.proc ≠ p)) = .ok s'' ∧
        ∀ sig, ∃ cells' cells'', s'.EventCells sig cells' ∧ s''.EventCells sig cells'' ∧
          cells'.map s'.entry = cells''.map s''.entry) := by
  obtain ⟨lists₀, elaborated⟩ := elaborate_represents static
  obtain ⟨s, ran, represents⟩ := run_represents elaborated before
  refine ⟨s, ran, represents.separate, fun idle => ?_⟩
  have absent := represents.idle idle
  generalize before.foldl WaitCall.lists lists₀ = lists at represents absent
  obtain ⟨s', ran', cells', chains', shape', entries'⟩ := run_represents represents (during ++ [.close p])
  obtain ⟨s'', ran'', cells'', chains'', shape'', entries''⟩ := run_represents represents (during.filter (·.proc ≠ p))
  refine ⟨s', s'', ran', ran'', fun sig => ⟨_, _, shape'.family.path (some sig), shape''.family.path (some sig), ?_⟩⟩
  rw [entries', entries'', List.foldl_append]
  show (during.foldl WaitCall.lists lists sig).filter (· ≠ ⟨true, p⟩) = _
  rw [WaitCall.foldl_lists during (fun _ => rfl) sig]
  have others := WaitCall.not_mem_foldl (during.filter (·.proc ≠ p))
    (fun call inside => by simpa using (List.mem_filter.mp inside).2) absent sig
  exact List.filter_eq_self.mpr fun cell inside => by simpa using ne_of_mem_of_not_mem inside others

/-- A process waits twice on one signal while another one starts to wait between. -/
theorem wait_restores_interleaved : ∃ s' s'', (elaborate [(0, 7)]).run
        ([.addSensitivity 1 0, .addSensitivity 2 0, .addSensitivity 1 0] ++ [.close 1]) = .ok s' ∧
      (elaborate [(0, 7)]).run [.addSensitivity 2 0] = .ok s'' ∧
      ∀ sig, ∃ cells' cells'', s'.EventCells sig cells' ∧ s''.EventCells sig cells'' ∧
        cells'.map s'.entry = cells''.map s''.entry := by
  obtain ⟨s, ran, -, restores⟩ := wait_restores_event_lists [(0, 7)] []
    [.addSensitivity 1 0, .addSensitivity 2 0, .addSensitivity 1 0] 1
  cases ran
  exact restores rfl

end Actions

end Ghdl.Grt
