import Ghdl.Synth.Sinks

/-!
# Removal of unused instances

The list of instances of a module is taken apart and built again through the same links, in one pass. The link of the last
instance that is kept is not cleared, so that removed instances at the end stay on the list; and an instance is used as
soon as it has a sink, be it in an instance that is removed. -/

namespace Ghdl.Synth

open Linked Function

/-- A module, with the instances, the nets and the inputs. -/
structure ModuleNetlist where
  tables : Netlist
  /-- `Get_Nbr_Outputs`. -/
  nbrOutputs : Instance → Nat
  /-- `Next_Instance`. -/
  nextInstance : Instance → Option Instance
  /-- `First_Instance` and `Last_Instance`. -/
  firstInstance : Option Instance
  lastInstance : Option Instance

/-- `Id_Free`. -/
def idFree : ModuleId := .other 1

namespace ModuleNetlist

variable (m : ModuleNetlist)

/-- `Get_Id`. -/
def getId (inst : Instance) : ModuleId := (m.tables.instances inst).klass

/-- `Is_Connected`. -/
def isConnected (o : Net) : Bool := (m.tables.getFirstSink o).isSome

/-- `Get_Output`. -/
def getOutput (inst : Instance) (idx : Nat) : Net := (m.tables.instances inst).firstOutput + idx

/-- `Is_Unused_Instance`: an instance without outputs is considered as used. -/
def isUnusedInstance (inst : Instance) : Bool :=
  if m.nbrOutputs inst = 0 then false
  else (List.range (m.nbrOutputs inst)).all fun idx => !m.isConnected (m.getOutput inst idx)

/-- `Extract_All_Instances`: the instance list is cleared. -/
def extractAllInstances : Option Instance × ModuleNetlist :=
  (m.firstInstance, { m with firstInstance := none, lastInstance := none })

/-- `Append_Instance`. -/
def appendInstance (inst : Instance) : ModuleNetlist :=
  match m.firstInstance, m.lastInstance with
  | some _, some last =>
    { m with nextInstance := update m.nextInstance last (some inst), lastInstance := some inst }
  | some _, none => { m with lastInstance := some inst }
  | none, _ => { m with firstInstance := some inst, lastInstance := some inst }

/-- The loop of `Remove_Unused_Instances`. -/
def removeLoop : Nat → Option Instance → ModuleNetlist → Outcome ModuleNetlist
  | _, none, m => .ok m
  | 0, some _, _ => .error .endless
  | fuel + 1, some inst, m =>
    let m := if ¬ (m.getId inst = idFree ∨ m.isUnusedInstance inst = true) then m.appendInstance inst else m
    removeLoop fuel (m.nextInstance inst) m

/-- `Remove_Unused_Instances`. The self instance is the first one. -/
def removeUnusedInstances : Outcome ModuleNetlist :=
  match m.extractAllInstances with
  | (none, _) => .error .assertion
  | (some inst, m) =>
    let m := m.appendInstance inst
    removeLoop (m.tables.lastInstance + 1) (m.nextInstance inst) m

/-- The instances that are visited from `First_Instance`. -/
def Listed (l : List Instance) : Prop := Segment (fun i => some (m.nextInstance i)) m.firstInstance l none

/-- The input is driven by an output of the instance. -/
def Drives (inst : Instance) (i : Input) : Prop :=
  m.tables.ValidInput i ∧ ∃ o, m.tables.getDriver i = some o ∧ (m.tables.nets o).parent = inst

/-- `Get_Parent`, of an input. -/
def inputParent (i : Input) : Instance := (m.tables.inputs i).parent

/-- The instance drives an input of the self instance, directly or through other instances. -/
inductive Needed (self : Instance) : Instance → Prop
  | output {inst : Instance} (i : Input) (drives : m.Drives inst i) (isSelf : m.inputParent i = self) : Needed self inst
  | through {inst : Instance} (i : Input) (drives : m.Drives inst i) (needed : Needed self (m.inputParent i)) :
    Needed self inst

/-- The module of a netlist: its self instance comes first and is not freed, the sinks are threaded, and the outputs of an
instance that is not freed are its nets. -/
structure WellFormed (selfInst : Instance) (l : List Instance) : Prop where
  listed : m.Listed (selfInst :: l)
  valid : ∀ i ∈ l, 0 < i ∧ i ≤ m.tables.lastInstance
  notFree : m.getId selfInst ≠ idFree
  sinkLists : m.tables.SinkLists
  drivers : ∀ i o, m.tables.ValidInput i → m.tables.getDriver i = some o → m.tables.ValidNet o
  outputs : ∀ i ∈ l, m.getId i ≠ idFree → ∀ o, m.tables.ValidNet o ∧ (m.tables.nets o).parent = i ↔
    ∃ idx < m.nbrOutputs i, o = m.getOutput i idx

/-- The instance is kept. -/
def keeps (inst : Instance) : Bool := m.getId inst ≠ idFree && !m.isUnusedInstance inst

/-- What the removal is for: no listed instance is freed, each one but the self instance and those without outputs drives a
listed instance, no needed instance is dropped, and the ends are those of the list. -/
def Cleaned (self : Instance) (l : List Instance) (m' : ModuleNetlist) : Prop :=
  ∃ l', m'.Listed (self :: l') ∧ l'.Sublist l ∧ m'.lastInstance = (self :: l').getLast? ∧
    (∀ i ∈ self :: l', m.getId i ≠ idFree) ∧
    (∀ i ∈ l', m.nbrOutputs i ≠ 0 → ∃ input, m.Drives i input ∧ m.inputParent input ∈ self :: l') ∧
    ∀ i ∈ l, m.Needed self i → i ∈ l'

/-- The last instance is kept, each other one that is kept and has outputs drives an input of one that is kept or of the
self instance, and no needed instance is freed. -/
def RemovalMeets (self : Instance) (l : List Instance) : Prop :=
  (∀ i, l.getLast? = some i → m.keeps i = true) ∧
  (∀ i ∈ l, m.keeps i = true → m.nbrOutputs i ≠ 0 → ∃ input, m.Drives i input ∧
    (m.inputParent input = self ∨ m.inputParent input ∈ l ∧ m.keeps (m.inputParent input) = true)) ∧
  ∀ i ∈ l, m.Needed self i → m.getId i ≠ idFree

variable {m} {m' : ModuleNetlist} {self inst last : Instance} {l kept trail rest : List Instance}

theorem appendInstance_tables : (m.appendInstance inst).tables = m.tables ∧
    (m.appendInstance inst).nbrOutputs = m.nbrOutputs := by
  unfold appendInstance
  split <;> exact ⟨rfl, rfl⟩

theorem keeps_congr (tables : m'.tables = m.tables) (outputs : m'.nbrOutputs = m.nbrOutputs) : m'.keeps = m.keeps := by
  funext i
  unfold keeps getId isUnusedInstance isConnected getOutput
  rw [tables, outputs]

theorem appendInstance_listed (listed : m.Listed (self :: (kept ++ trail ++ inst :: rest)))
    (isLast : m.lastInstance = (self :: kept).getLast?) :
    (m.appendInstance inst).Listed (self :: (kept ++ [inst] ++ rest)) ∧
      (m.appendInstance inst).lastInstance = some inst ∧
      (m.appendInstance inst).nextInstance inst = m.nextInstance inst := by
  obtain ⟨front, last, split⟩ := List.eq_nil_or_concat (self :: kept) |>.resolve_left (List.cons_ne_nil _ _)
  rw [List.concat_eq_append] at split
  have whole : m.Listed (front ++ [last] ++ (trail ++ inst :: rest)) := by
    have shape : self :: (kept ++ trail ++ inst :: rest) = front ++ [last] ++ (trail ++ inst :: rest) := by
      rw [← split]
      simp
    rw [← shape]
    exact listed
  have nodup := Segment.nodup whole
  obtain ⟨r, before, after⟩ := Segment.append_iff.mp whole
  obtain ⟨s, -, tail⟩ := Segment.append_iff.mp after
  have start : m.firstInstance = some self := listed.1
  rw [split, List.getLast?_concat] at isLast
  have append : m.appendInstance inst =
      { m with nextInstance := update m.nextInstance last (some inst), lastInstance := some inst } := by
    unfold appendInstance
    rw [start, isLast]
  have outside : last ∉ inst :: rest := by
    have parts := List.nodup_append.mp nodup
    intro inside
    exact parts.2.2 last (by simp) last (List.mem_append_right _ inside) rfl
  have fresh : last ∉ front := by
    have parts := List.nodup_append.mp (List.nodup_append.mp nodup).1
    exact fun inside => parts.2.2 last inside last List.mem_cons_self rfl
  have links : (fun i => some ((update m.nextInstance last (some inst)) i)) =
      update (fun i => some (m.nextInstance i)) last (some (some inst)) := by
    funext i
    by_cases same : i = last
    · rw [same, update_self, update_self]
    · rw [update_of_ne same, update_of_ne same]
  rw [append]
  have other : inst ≠ last := fun same => outside (by rw [same]; exact List.mem_cons_self)
  refine ⟨?_, rfl, update_of_ne other _ _⟩
  have shape : self :: (kept ++ [inst] ++ rest) = front ++ [last] ++ inst :: rest := by
    rw [← split]
    simp
  rw [shape]
  unfold Listed
  dsimp only
  rw [links]
  have tail' : Segment (fun i => some (m.nextInstance i)) (some inst) (inst :: rest) none := by
    obtain ⟨start', more⟩ := tail
    exact ⟨rfl, more⟩
  exact Segment.append (Segment.redirect before fresh (some inst)) ((Segment.update outside _).mpr tail')

/-- The loop, with the instances it has kept and those it has left out since: they stay on the list until the next one is
kept. -/
theorem removeLoop_spec {fuel : Nat} (listed : m.Listed (self :: (kept ++ trail ++ rest)))
    (isLast : m.lastInstance = (self :: kept).getLast?) (left : ∀ i ∈ trail, m.keeps i = false)
    (fits : rest.length ≤ fuel) :
    ∃ m' trail', removeLoop fuel rest.head? m = .ok m' ∧ m'.tables = m.tables ∧ m'.nbrOutputs = m.nbrOutputs ∧
      m'.Listed (self :: (kept ++ rest.filter m.keeps ++ trail')) ∧
      m'.lastInstance = (self :: (kept ++ rest.filter m.keeps)).getLast? ∧
      (trail' = [] ↔ ∀ i, (trail ++ rest).getLast? = some i → m.keeps i = true) := by
  induction rest generalizing m kept trail fuel with
  | nil =>
    rw [List.filter_nil, List.append_nil]
    refine ⟨m, trail, by cases fuel <;> rfl, rfl, rfl, by simpa using listed, isLast, ?_⟩
    rw [List.append_nil]
    constructor
    · intro none i isEnd
      rw [none] at isEnd
      cases isEnd
    intro all
    apply Classical.byContradiction
    intro some
    have isEnd := List.getLast?_eq_some_getLast some
    have kept := all _ isEnd
    rw [left _ (List.getLast_mem some)] at kept
    cases kept
  | cons inst rest ih =>
    obtain ⟨fuel, rfl⟩ := Fallible.fuel_succ fits
    have isNext : m.nextInstance inst = rest.head? := by
      have shape : self :: (kept ++ trail ++ inst :: rest) = self :: (kept ++ trail) ++ inst :: rest := by simp
      rw [shape] at listed
      obtain ⟨r, -, -, s, link, tail⟩ := Segment.append_iff.mp listed
      rw [Option.some.inj link]
      cases rest with
      | nil => exact tail
      | cons next rest => exact tail.1
    have keepsIff : (¬ (m.getId inst = idFree ∨ m.isUnusedInstance inst = true)) ↔ m.keeps inst = true := by
      unfold keeps
      simp
    unfold removeLoop
    dsimp only [List.head?_cons]
    by_cases isKept : m.keeps inst = true
    · rw [if_pos (keepsIff.mpr isKept)]
      obtain ⟨listed', last', next'⟩ := appendInstance_listed listed isLast
      obtain ⟨tables, outputs⟩ := @appendInstance_tables m inst
      have same := keeps_congr tables outputs
      have listed'' : (m.appendInstance inst).Listed (self :: (kept ++ [inst] ++ [] ++ rest)) := by
        rw [List.append_nil]
        exact listed'
      have isLast' : (m.appendInstance inst).lastInstance = (self :: (kept ++ [inst])).getLast? := by
        rw [last', ← List.cons_append, List.getLast?_concat]
      rw [next', isNext]
      obtain ⟨m', trail', run, tables', outputs', final, ends, empty⟩ := ih listed'' isLast' (by simp) (by simpa using fits)
      rw [same] at final ends empty
      rw [List.filter_cons_of_pos isKept]
      refine ⟨m', trail', run, tables'.trans tables, outputs'.trans outputs, by simpa using final, by simpa using ends, ?_⟩
      rw [empty, List.nil_append]
      cases rest with
      | nil => simp [isKept]
      | cons next rest => rw [List.getLast?_append_of_ne_nil _ (List.cons_ne_nil _ _), List.getLast?_cons_cons]
    · have notKept : m.keeps inst = false := Bool.eq_false_iff.mpr isKept
      rw [if_neg fun holds => isKept (keepsIff.mp holds), isNext]
      have listed' : m.Listed (self :: (kept ++ (trail ++ [inst]) ++ rest)) := by simpa using listed
      have left' : ∀ i ∈ trail ++ [inst], m.keeps i = false := by
        intro i inside
        rcases List.mem_append.mp inside with inside | inside
        · exact left i inside
        · rw [List.mem_singleton.mp inside]
          exact notKept
      obtain ⟨m', trail', run, tables, outputs, final, ends, empty⟩ := ih listed' isLast left' (by simpa using fits)
      rw [List.filter_cons_of_neg isKept]
      rw [List.append_assoc, List.singleton_append] at empty
      exact ⟨m', trail', run, tables, outputs, final, ends, empty⟩

theorem removeUnusedInstances_spec (listed : m.Listed (self :: l)) (valid : ∀ i ∈ l, 0 < i ∧ i ≤ m.tables.lastInstance) :
    ∃ m' trail, m.removeUnusedInstances = .ok m' ∧ m'.tables = m.tables ∧ m'.nbrOutputs = m.nbrOutputs ∧
      m'.Listed (self :: (l.filter m.keeps ++ trail)) ∧ m'.lastInstance = (self :: l.filter m.keeps).getLast? ∧
      (trail = [] ↔ ∀ i, l.getLast? = some i → m.keeps i = true) := by
  obtain ⟨start, r, link, rest⟩ := listed
  obtain rfl := Option.some.inj link
  have isNext : m.nextInstance self = l.head? := by
    cases l with
    | nil => exact rest
    | cons i l => exact rest.1
  have fits : l.length ≤ m.tables.lastInstance + 1 := Segment.length_le rest fun i inside =>
    Nat.lt_succ_of_le (valid i inside).2
  have same : ({ m with firstInstance := some self, lastInstance := some self } : ModuleNetlist).keeps = m.keeps :=
    keeps_congr rfl rfl
  obtain ⟨m', trail, run, tables, outputs, final, ends, empty⟩ :=
    @removeLoop_spec { m with firstInstance := some self, lastInstance := some self } self [] [] l _
      ⟨rfl, _, rfl, rest⟩ rfl (by simp) fits
  rw [same] at final ends empty
  refine ⟨m', trail, ?_, tables, outputs, by simpa using final, by simpa using ends, by simpa using empty⟩
  unfold removeUnusedInstances extractAllInstances
  rw [start]
  show removeLoop _ (m.nextInstance self) _ = _
  rw [isNext]
  exact run

theorem WellFormed.keeps_of_drives (wellFormed : m.WellFormed self l) (inside : inst ∈ l) (notFree : m.getId inst ≠ idFree)
    {i : Input} (drives : m.Drives inst i) : m.keeps inst = true := by
  obtain ⟨isValid, o, driver, isParent⟩ := drives
  have validNet := wellFormed.drivers i o isValid driver
  obtain ⟨idx, less, rfl⟩ := (wellFormed.outputs inst inside notFree o).mp ⟨validNet, isParent⟩
  obtain ⟨sinks, path, -, members⟩ := wellFormed.sinkLists _ validNet
  have isSink : i ∈ sinks := (members i).mpr ⟨isValid, driver⟩
  have connected : m.isConnected (m.getOutput inst idx) = true := by
    unfold isConnected
    cases sinks with
    | nil => exact absurd isSink List.not_mem_nil
    | cons first sinks =>
      rw [path.1]
      rfl
  have used : m.isUnusedInstance inst = false := by
    unfold isUnusedInstance
    rw [if_neg (by omega)]
    apply Bool.eq_false_iff.mpr
    intro all
    have unconnected := List.all_eq_true.mp all idx (List.mem_range.mpr less)
    rw [connected] at unconnected
    cases unconnected
  unfold keeps
  rw [used]
  simp [notFree]

theorem Needed.drives (needed : m.Needed self inst) : ∃ i, m.Drives inst i := by
  cases needed with
  | output i drives _ | through i drives _ => exact ⟨i, drives⟩

theorem notFree_of_keeps (isKept : m.keeps inst = true) : m.getId inst ≠ idFree := by
  unfold keeps at isKept
  exact of_decide_eq_true (Bool.and_eq_true_iff.mp isKept).1

/-- The removal leaves what it is for: this holds exactly under the condition. -/
theorem removeUnusedInstances_iff (wellFormed : m.WellFormed self l) :
    (∃ m', m.removeUnusedInstances = .ok m' ∧ m.Cleaned self l m') ↔ m.RemovalMeets self l := by
  obtain ⟨m', trail, run, -, -, listed, ends, empty⟩ := removeUnusedInstances_spec wellFormed.listed wellFormed.valid
  have onList : ∀ input, m.inputParent input ∈ self :: l.filter m.keeps ↔
      m.inputParent input = self ∨ m.inputParent input ∈ l ∧ m.keeps (m.inputParent input) = true := by
    intro input
    rw [List.mem_cons, List.mem_filter]
  constructor
  · intro ⟨m'', run', l', listed', _, ends', notFree, drive, needed⟩
    obtain rfl : m' = m'' := Except.ok.inj (run.symm.trans run')
    have same : l.filter m.keeps ++ trail = l' := (List.cons.inj (Segment.unique listed listed')).2
    have noTrail : trail = [] := by
      apply Classical.byContradiction
      intro some
      have nodup := Segment.nodup listed
      rw [← same, ← List.cons_append, List.getLast?_append_of_ne_nil _ some] at ends'
      rw [← List.cons_append] at nodup
      have isEnd := ends.symm.trans ends'
      rw [List.getLast?_eq_some_getLast some] at isEnd
      have first := List.mem_of_getLast? isEnd
      exact (List.nodup_append.mp nodup).2.2 _ first _ (List.getLast_mem some) rfl
    rw [noTrail, List.append_nil] at same
    subst same
    refine ⟨empty.mp noTrail, ?_, ?_⟩
    · intro i inside isKept outputs
      obtain ⟨input, drives, isListed⟩ := drive i (List.mem_filter.mpr ⟨inside, isKept⟩) outputs
      exact ⟨input, drives, (onList input).mp isListed⟩
    · intro i inside isNeeded
      exact notFree_of_keeps (List.mem_filter.mp (needed i inside isNeeded)).2
  · intro ⟨lastKept, drive, free⟩
    have noTrail := empty.mpr lastKept
    rw [noTrail, List.append_nil] at listed
    refine ⟨m', run, l.filter m.keeps, listed, List.filter_sublist, ends, ?_, ?_, ?_⟩
    · intro i inside
      rcases List.mem_cons.mp inside with rfl | inside
      · exact wellFormed.notFree
      · exact notFree_of_keeps (List.mem_filter.mp inside).2
    · intro i inside outputs
      obtain ⟨inList, isKept⟩ := List.mem_filter.mp inside
      obtain ⟨input, drives, isListed⟩ := drive i inList isKept outputs
      exact ⟨input, drives, (onList input).mpr isListed⟩
    · intro i inside isNeeded
      obtain ⟨input, drives⟩ := isNeeded.drives
      exact List.mem_filter.mpr ⟨inside, wellFormed.keeps_of_drives inside (free i inside isNeeded) drives⟩

/-- The self instance is 1, the gate 2 is between its output and its input, and the gate 3 reads its output for nothing. -/
def gates : Netlist where
  instances i := { klass := .monadic i, firstParam := 1, firstInput := i, firstOutput := i }
  lastInstance := 3
  inputs i :=
    { parent := i
      driver := if i = 1 then some 2 else if i ≤ 3 then some 1 else none
      nextSink := if i = 3 then some 2 else none }
  lastInput := 3
  nets o := { parent := o, firstSink := if o = 1 then some 3 else if o = 2 then some 1 else none, w := 1 }
  lastNet := 3
  params _ := 0
  lastParam := 0

/-- The gates are listed after the self instance, in either order. -/
def gatesInOrder (first second : Instance) : ModuleNetlist where
  tables := gates
  nbrOutputs _ := 1
  nextInstance i := if i = 1 then some first else if i = first then some second else none
  firstInstance := some 1
  lastInstance := some second

theorem gates_sinkLists : gates.SinkLists := by
  intro (o : Nat) valid
  obtain ⟨lower, upper⟩ : 0 < o ∧ o ≤ 3 := valid
  obtain rfl | rfl | rfl : o = 1 ∨ o = 2 ∨ o = 3 := by omega
  · refine ⟨[3, 2], ⟨rfl, _, rfl, rfl, _, rfl, rfl⟩, by decide, fun (i : Nat) => ?_⟩
    show _ ↔ (0 < i ∧ i ≤ 3) ∧ (if i = 1 then some 2 else if i ≤ 3 then some 1 else none) = some 1
    have two : ∀ n : Nat, n ≠ 1 → ((n = 3 ∨ n = 2) ↔ (0 < n ∧ n ≤ 3) ∧ n ≤ 3) := by omega
    by_cases same : i = 1
    · simp [same]
    · simpa [same] using two i same
  · refine ⟨[1], ⟨rfl, _, rfl, rfl⟩, by decide, fun (i : Nat) => ?_⟩
    show _ ↔ (0 < i ∧ i ≤ 3) ∧ (if i = 1 then some 2 else if i ≤ 3 then some 1 else none) = some 2
    by_cases same : i = 1
    · simp [same]
    · simp [same]
  · refine ⟨[], rfl, by decide, fun (i : Nat) => ?_⟩
    show _ ↔ (0 < i ∧ i ≤ 3) ∧ (if i = 1 then some 2 else if i ≤ 3 then some 1 else none) = some 3
    by_cases same : i = 1
    · simp [same]
    · simp [same]

theorem gates_wellFormed {first second : Instance} (listed : (gatesInOrder first second).Listed [1, first, second])
    (valid : ∀ i ∈ [first, second], 0 < i ∧ i ≤ 3) : (gatesInOrder first second).WellFormed 1 [first, second] where
  listed := listed
  valid := valid
  notFree := by
    show ModuleId.monadic 1 ≠ .other 1
    simp
  sinkLists := gates_sinkLists
  drivers i o isValid driver := by
    have isDriver : (if i = 1 then some 2 else if i ≤ 3 then some 1 else none) = some o := driver
    show 0 < o ∧ o ≤ 3
    by_cases same : i = 1
    · rw [if_pos same] at isDriver
      rw [← Option.some.inj isDriver]
      decide
    · have upper : i ≤ 3 := isValid.2
      rw [if_neg same, if_pos upper] at isDriver
      rw [← Option.some.inj isDriver]
      decide
  outputs := by
    intro (i : Nat) inside _ (o : Nat)
    have isValid := valid i inside
    have only : ∀ n k : Nat, 0 < n → n ≤ 3 → ((0 < k ∧ k ≤ 3) ∧ k = n ↔ ∃ idx < 1, k = n + idx) := by
      intro n k lower upper
      constructor
      · intro ⟨_, same⟩
        exact ⟨0, Nat.one_pos, same⟩
      · intro ⟨idx, less, same⟩
        omega
    exact only i o isValid.1 isValid.2

/-- The unused gate is removed when it is not the last one. -/
theorem unused_gate_removed : ∃ m', (gatesInOrder 3 2).removeUnusedInstances = .ok m' ∧ (gatesInOrder 3 2).Cleaned 1 [3, 2] m' := by
  have wellFormed : (gatesInOrder 3 2).WellFormed 1 [3, 2] :=
    gates_wellFormed ⟨rfl, _, rfl, rfl, _, rfl, rfl, _, rfl, rfl⟩ (by decide)
  refine (removeUnusedInstances_iff wellFormed).mpr ⟨?_, ?_, ?_⟩
  · intro i isEnd
    rw [← Option.some.inj isEnd]
    rfl
  · intro i inside isKept _
    rcases List.mem_pair.mp inside with rfl | rfl
    · exact absurd isKept (by decide)
    · exact ⟨1, ⟨⟨by decide, by decide⟩, 2, rfl, rfl⟩, Or.inl rfl⟩
  · intro i _ _
    show ModuleId.monadic i ≠ .other 1
    simp

/-- The unused gate stays on the list when it is the last one, and it is not `Last_Instance`. -/
theorem unused_gate_stays : (gatesInOrder 2 3).WellFormed 1 [2, 3] ∧ (gatesInOrder 2 3).isUnusedInstance 3 = true ∧
    ∃ m', (gatesInOrder 2 3).removeUnusedInstances = .ok m' ∧ m'.Listed [1, 2, 3] ∧ m'.lastInstance = some 2 := by
  refine ⟨gates_wellFormed ⟨rfl, _, rfl, rfl, _, rfl, rfl, _, rfl, rfl⟩ (by decide), by decide, _, rfl, ?_, rfl⟩
  exact ⟨rfl, _, rfl, rfl, _, rfl, rfl, _, rfl, rfl⟩

end ModuleNetlist

end Ghdl.Synth
