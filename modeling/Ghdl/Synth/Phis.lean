import Ghdl.Synth.SortWires

/-!
# Phi contexts

A context that is pushed on some tables holds the records that are made since: one for each wire that is
assigned in it, with the assignment that the wire had before. The tables below it stay as they were, so that
the end of the context gives them back, and the merge of two contexts makes one assignment for each wire of
the two.
-/

namespace Ghdl.Synth

open Function

namespace Env

open Linked Sorting

variable {e e₀ e' e'' : Env} {l l' ls rs : List Assign} {p q : Option Assign} {a t f : Assign} {w w' : WireId}
  {val n : Net}

/-- The net that was last assigned to a wire, or its initial net. -/
def last (e : Env) (w : WireId) : Net :=
  match (e.wires w).curAssign with
  | none => (e.wires w).gate
  | some asgn => (e.asgns asgn).value

/-- The kinds of the wires that are assigned. -/
def Assignable (e : Env) (w : WireId) : Prop :=
  (e.wires w).kind = .signal ∨ (e.wires w).kind = .variable_ ∨ (e.wires w).kind = .output ∨
    (e.wires w).kind = .inout

/-- The wires that are there. -/
def Declared (e : Env) (w : WireId) : Prop := (e.wires w).kind ≠ .none

/-- Two tables have the same wires, but for their assignments. -/
def SameWires (e e' : Env) : Prop :=
  ∀ w, (e'.wires w).kind = (e.wires w).kind ∧ (e'.wires w).gate = (e.wires w).gate

/-- The net has the width of the wire. -/
def Fits (e : Env) (w : WireId) (n : Net) : Prop :=
  e.netlist.ValidNet n ∧ e.netlist.getWidth n = e.netlist.getWidth (e.wires w).gate

/-- The tables fit together. -/
structure Sound (e : Env) : Prop where
  netlist : e.netlist.Sound
  levels : e.phis ≠ []
  /-- The last assignment of a wire is in a context that is open. -/
  cur : ∀ w a, (e.wires w).curAssign = some a →
    a ≤ e.lastAssign ∧ (e.asgns a).id = w ∧ (e.asgns a).phi < e.phis.length
  assigned : ∀ w a, (e.wires w).curAssign = some a → e.Assignable w
  gates : ∀ w, e.Declared w → e.netlist.ValidNet (e.wires w).gate ∧ e.netlist.getWidth (e.wires w).gate ≠ 0
  fits : ∀ w, e.Declared w → e.Fits w (e.last w)

/-- Tables with a context that was pushed on the first tables, the records L being those of the context. -/
structure Level (e₀ : Env) (l : List Assign) (e : Env) : Prop where
  wires : SameWires e₀ e
  extends_ : Netlist.Extends e₀.netlist e.netlist
  phis : ∃ phi, e.phis = phi :: e₀.phis ∧ l.length = phi.nbr ∧ Chain e phi.first l none
  distinct : (l.map fun a => (e.asgns a).id).Nodup
  fresh : ∀ a ∈ l, e₀.lastAssign < a ∧ a ≤ e.lastAssign
  later : e₀.lastAssign ≤ e.lastAssign
  record : ∀ a ∈ l, (e.asgns a).phi = e₀.phis.length ∧
    (e.asgns a).prev = (e₀.wires (e.asgns a).id).curAssign ∧ e.Assignable (e.asgns a).id
  cur : ∀ a ∈ l, (e.wires (e.asgns a).id).curAssign = some a
  others : ∀ w, (∀ a ∈ l, (e.asgns a).id ≠ w) → (e.wires w).curAssign = (e₀.wires w).curAssign
  old : ∀ a ≤ e₀.lastAssign, e.asgns a = e₀.asgns a

theorem SameWires.assignable (same : SameWires e e') : e'.Assignable w ↔ e.Assignable w := by
  unfold Assignable
  rw [(same w).1]

theorem SameWires.declared (same : SameWires e e') : e'.Declared w ↔ e.Declared w := by
  unfold Declared
  rw [(same w).1]

theorem Assignable.declared (assignable : e.Assignable w) : e.Declared w := by
  unfold Declared
  rcases assignable with kind | kind | kind | kind <;> rw [kind] <;> exact WireKind.noConfusion

theorem SameWires.trans (first : SameWires e e') (second : SameWires e' e'') : SameWires e e'' := fun w =>
  ⟨(second w).1.trans (first w).1, (second w).2.trans (first w).2⟩

theorem last_eq_of_cur (cur : (e.wires w).curAssign = some a) : e.last w = (e.asgns a).value := by
  unfold last
  rw [cur]

theorem getAssignValue_eq (assignable : e.Assignable (e.asgns a).id) : e.getAssignValue a = .ok (e.asgns a).value := by
  unfold getAssignValue
  rcases assignable with kind | kind | kind | kind <;> rw [kind]

theorem getLastAssignedValue_last (sound : e.Sound) (w : WireId) : e.getLastAssignedValue w = .ok (e.last w) := by
  unfold getLastAssignedValue last
  cases cur : (e.wires w).curAssign with
  | none => rfl
  | some a =>
    have same := (sound.cur w a cur).2.1
    exact getAssignValue_eq (same.symm ▸ sound.assigned w a cur)

/-- The tables with a new record in the last context. -/
def appended (e : Env) (dest : WireId) (n : Net) (phi : PhiType) (rest : List PhiType) : Env where
  netlist := e.netlist
  wires := update e.wires dest { e.wires dest with curAssign := some (e.lastAssign + 1) }
  asgns := update e.asgns (e.lastAssign + 1)
    { id := dest, prev := (e.wires dest).curAssign, phi := e.currentPhi, chain := phi.first, value := n }
  lastAssign := e.lastAssign + 1
  phis := { first := some (e.lastAssign + 1), nbr := phi.nbr + 1 } :: rest

/-- The tables with another value in a record. -/
def overwritten (e : Env) (a : Assign) (n : Net) : Env :=
  { e with asgns := update e.asgns a { e.asgns a with value := n } }

theorem phiAppend_eq {phi : PhiType} {rest : List PhiType} (phis : e.phis = phi :: rest) :
    e.phiAppend w n = .ok (e.appended w n phi rest) := by
  simp [phiAppend, phiInsertAssign, setCurAssign, setAssignChain, currentPhi, phis, check, appended]
  rfl

/-- An assignment in a context. -/
structure Assigned (e₀ : Env) (l : List Assign) (e : Env) (w : WireId) (n : Net) (l' : List Assign) (e' : Env) :
    Prop where
  level : Level e₀ l' e'
  sound : e'.Sound
  netlist : e'.netlist = e.netlist
  wires : SameWires e e'
  self : e'.last w = n
  others : ∀ w', w' ≠ w → e'.last w' = e.last w'
  /-- The other records stay. -/
  frame : ∀ a ≤ e.lastAssign, a ∉ l → e'.asgns a = e.asgns a
  cells : ∀ a ∈ l', a ∈ l ∨ e.lastAssign < a
  later : e.lastAssign ≤ e'.lastAssign

theorem Level.overwrites (level : Level e₀ l e) (sound : e.Sound) (inside : a ∈ l) (isW : (e.asgns a).id = w)
    (fits : e.Fits w n) : Assigned e₀ l e w n l (e.overwritten a n) := by
  have record : ∀ b, (e.overwritten a n).asgns b = { e.asgns b with value := ((e.overwritten a n).asgns b).value } := by
    intro b
    by_cases same : b = a
    · subst same
      simp [overwritten]
    · simp [overwritten, same]
  have others : ∀ b, b ≠ a → (e.overwritten a n).asgns b = e.asgns b := fun b other =>
    update_of_ne other _ _
  have cur : (e.wires w).curAssign = some a := isW ▸ level.cur a inside
  have self : (e.overwritten a n).last w = n := by
    rw [last_eq_of_cur (show ((e.overwritten a n).wires w).curAssign = some a from cur)]
    simp [overwritten]
  have lasts : ∀ w', w' ≠ w → (e.overwritten a n).last w' = e.last w' := by
    intro w' other
    unfold last
    show (match (e.wires w').curAssign with | none => _ | some b => ((e.overwritten a n).asgns b).value) = _
    cases cur' : (e.wires w').curAssign with
    | none => rfl
    | some b =>
      have apart : b ≠ a := by
        intro same
        have isW' := (sound.cur w' b cur').2.1
        rw [same, isW] at isW'
        exact other isW'.symm
      show ((e.overwritten a n).asgns b).value = _
      rw [others b apart]
  have chain : ∀ {p q : Option Assign} {m : List Assign}, Chain (e.overwritten a n) p m q ↔ Chain e p m q :=
    Segment.congr fun b _ => by
      unfold links
      rw [record b]
  have isFresh := (level.fresh a inside).1
  refine
    { level :=
        { wires := level.wires
          extends_ := level.extends_
          phis := ?_
          distinct := ?_
          fresh := level.fresh
          later := level.later
          record := fun b member => ?_
          cur := fun b member => ?_
          others := fun w' outside => level.others w' fun b member => ?_
          old := fun b bound => ?_ }
      sound :=
        { netlist := sound.netlist
          levels := sound.levels
          cur := fun w' b cur' => ?_
          assigned := sound.assigned
          gates := sound.gates
          fits := fun w' assignable => ?_ }
      netlist := rfl, wires := fun _ => ⟨rfl, rfl⟩, self, others := lasts
      frame := fun b _ outside => others b fun same => outside (same ▸ inside)
      cells := fun b member => .inl member
      later := Nat.le_refl _ }
  · obtain ⟨phi, phis, nbr, path⟩ := level.phis
    exact ⟨phi, phis, nbr, chain.mpr path⟩
  · have ids : (fun b => ((e.overwritten a n).asgns b).id) = fun b => (e.asgns b).id := by
      funext b
      rw [record b]
    rw [ids]
    exact level.distinct
  · rw [record b]
    exact level.record b member
  · rw [record b]
    exact level.cur b member
  · have other := outside b member
    rwa [record b] at other
  · rw [others b (Nat.ne_of_lt (Nat.lt_of_le_of_lt bound isFresh))]
    exact level.old b bound
  · rw [record b]
    exact sound.cur w' b cur'
  · by_cases same : w' = w
    · rw [same, self]
      exact fits
    · rw [lasts w' same]
      exact sound.fits w' assignable

theorem Level.appends (level : Level e₀ l e) (sound : e.Sound)
    (outside : ∀ a ∈ l, (e.asgns a).id ≠ w) (assignable : e.Assignable w) (fits : e.Fits w n) :
    ∃ e', e.phiAppend w n = .ok e' ∧ Assigned e₀ l e w n ((e.lastAssign + 1) :: l) e' := by
  obtain ⟨phi, phis, nbr, path⟩ := level.phis
  refine ⟨_, phiAppend_eq phis, ?_⟩
  obtain ⟨e', isE'⟩ : ∃ e', e.appended w n phi e₀.phis = e' := ⟨_, rfl⟩
  have new : e'.asgns (e.lastAssign + 1) =
      { id := w, prev := (e.wires w).curAssign, phi := e.currentPhi, chain := phi.first, value := n } := by
    rw [← isE']
    exact update_self _ _ _
  have old : ∀ b ≤ e.lastAssign, e'.asgns b = e.asgns b := by
    intro b bound
    rw [← isE']
    exact update_of_ne (Nat.ne_of_lt (Nat.lt_succ_of_le bound)) _ _
  have curSelf : (e'.wires w).curAssign = some (e.lastAssign + 1) := by
    rw [← isE']
    show (update e.wires w _ w).curAssign = _
    rw [update_self]
  have curOther : ∀ w', w' ≠ w → (e'.wires w').curAssign = (e.wires w').curAssign := by
    intro w' other
    rw [← isE']
    exact congrArg WireIdRecord.curAssign (update_of_ne other _ _)
  have same : SameWires e e' := by
    intro w'
    rw [← isE']
    unfold appended
    by_cases isW : w' = w
    · subst isW
      simp
    · simp [isW]
  have netlist : e'.netlist = e.netlist := by rw [← isE']; rfl
  have lastAssign : e'.lastAssign = e.lastAssign + 1 := by rw [← isE']; rfl
  have phis' : e'.phis = { first := some (e.lastAssign + 1), nbr := phi.nbr + 1 } :: e₀.phis := by rw [← isE']; rfl
  have current : e.currentPhi = e₀.phis.length := by
    unfold currentPhi
    rw [phis]
    rfl
  have lengths : e'.phis.length = e.phis.length := by rw [phis', phis]; rfl
  have bound : ∀ b ∈ l, b ≤ e.lastAssign := fun b member => (level.fresh b member).2
  have ids : (l.map fun b => (e'.asgns b).id) = l.map fun b => (e.asgns b).id :=
    List.map_congr_left fun b member => by rw [old b (bound b member)]
  have self : e'.last w = n := by
    rw [last_eq_of_cur curSelf, new]
  have lasts : ∀ w', w' ≠ w → e'.last w' = e.last w' := by
    intro w' other
    unfold last
    rw [curOther w' other, (same w').2]
    cases cur' : (e.wires w').curAssign with
    | none => rfl
    | some b =>
      show (e'.asgns b).value = _
      rw [old b (sound.cur w' b cur').1]
  rw [isE']
  refine
    { level :=
        { wires := level.wires.trans same
          extends_ := netlist ▸ level.extends_
          phis := ⟨_, phis', congrArg Nat.succ nbr, ?_⟩
          distinct := ?_
          fresh := fun b member => ?_
          later := lastAssign ▸ Nat.le_succ_of_le level.later
          record := fun b member => ?_
          cur := fun b member => ?_
          others := fun w' apart => ?_
          old := fun b bound => (old b (Nat.le_trans bound level.later)).trans (level.old b bound) }
      sound :=
        { netlist := netlist ▸ sound.netlist
          levels := by
            rw [phis']
            exact List.cons_ne_nil _ _
          cur := fun w' b cur' => ?_
          assigned := fun w' b cur' => ?_
          gates := fun w' able => ?_
          fits := fun w' able => ?_ }
      netlist, wires := same, self, others := lasts
      frame := fun b bound _ => old b bound
      cells := fun b member => ?_
      later := lastAssign ▸ Nat.le_succ _ }
  · refine ⟨rfl, phi.first, ?_, (Segment.congr fun b member => ?_).mpr path⟩
    · unfold links
      rw [new]
    · unfold links
      rw [old b (bound b member)]
  · rw [List.map_cons, ids, new]
    refine List.nodup_cons.mpr ⟨fun member => ?_, level.distinct⟩
    obtain ⟨b, inside, isW⟩ := List.mem_map.mp member
    exact outside b inside isW
  · rw [lastAssign]
    rcases List.mem_cons.mp member with rfl | member
    · exact ⟨Nat.lt_succ_of_le level.later, Nat.le_refl _⟩
    · exact ⟨(level.fresh b member).1, Nat.le_succ_of_le (level.fresh b member).2⟩
  · rcases List.mem_cons.mp member with rfl | member
    · rw [new]
      exact ⟨current, level.others w outside, same.assignable.mpr assignable⟩
    · rw [old b (bound b member), same.assignable]
      exact level.record b member
  · rcases List.mem_cons.mp member with rfl | member
    · rw [new]
      exact curSelf
    · rw [old b (bound b member), curOther _ (outside b member)]
      exact level.cur b member
  · have other : w' ≠ w := by
      intro isW
      refine apart _ List.mem_cons_self ?_
      rw [new]
      exact isW.symm
    rw [curOther w' other]
    refine level.others w' fun b member => ?_
    have differs := apart b (List.mem_cons_of_mem _ member)
    rwa [old b (bound b member)] at differs
  · rw [lengths, lastAssign]
    by_cases isW : w' = w
    · subst isW
      obtain rfl := Option.some.inj (curSelf.symm.trans cur')
      refine ⟨Nat.le_refl _, by rw [new], ?_⟩
      rw [new, phis]
      show e.currentPhi < e₀.phis.length + 1
      rw [current]
      exact Nat.lt_succ_self _
    · rw [curOther w' isW] at cur'
      obtain ⟨le, id, less⟩ := sound.cur w' b cur'
      rw [old b le]
      exact ⟨Nat.le_succ_of_le le, id, less⟩
  · rw [same.assignable]
    by_cases isW : w' = w
    · rw [isW]
      exact assignable
    · rw [curOther w' isW] at cur'
      exact sound.assigned w' b cur'
  · rw [netlist, (same w').2]
    exact sound.gates w' (same.declared.mp able)
  · unfold Fits
    rw [netlist, (same w').2]
    by_cases isW : w' = w
    · rw [isW, self]
      exact fits
    · rw [lasts w' isW]
      exact sound.fits w' (same.declared.mp able)
  · rcases List.mem_cons.mp member with rfl | member
    · exact .inr (Nat.lt_succ_self _)
    · exact .inl member

theorem Level.phiAssign (level : Level e₀ l e) (sound₀ : e₀.Sound) (sound : e.Sound) (assignable : e.Assignable w)
    (fits : e.Fits w n) : ∃ e' l', e.phiAssign w n = .ok e' ∧ Assigned e₀ l e w n l' e' := by
  have current : e.currentPhi = e₀.phis.length := by
    obtain ⟨phi, phis, _, _⟩ := level.phis
    unfold currentPhi
    rw [phis]
    rfl
  by_cases inside : ∃ a ∈ l, (e.asgns a).id = w
  · obtain ⟨a, member, isW⟩ := inside
    have cur : (e.wires w).curAssign = some a := isW ▸ level.cur a member
    refine ⟨e.overwritten a n, l, ?_, level.overwrites sound member isW fits⟩
    unfold Env.phiAssign
    rw [cur]
    show (if (e.asgns a).phi < e.currentPhi then _ else _) = _
    rw [current, (level.record a member).1, if_neg (Nat.lt_irrefl _)]
    rfl
  have outside : ∀ a ∈ l, (e.asgns a).id ≠ w := fun a member isW => inside ⟨a, member, isW⟩
  obtain ⟨e', result, assigned⟩ := level.appends sound outside assignable fits
  refine ⟨e', _, ?_, assigned⟩
  unfold Env.phiAssign
  cases cur : (e.wires w).curAssign with
  | none => exact result
  | some a =>
    have below := level.others w outside
    rw [cur] at below
    obtain ⟨le, _, less⟩ := sound₀.cur w a below.symm
    rw [← level.old a le, ← current] at less
    exact (if_pos less).trans result

theorem SameWires.refl (e : Env) : SameWires e e := fun _ => ⟨rfl, rfl⟩

theorem Sound.pushPhi (sound : e.Sound) : e.pushPhi.Sound where
  netlist := sound.netlist
  levels := List.cons_ne_nil _ _
  cur w a cur := by
    obtain ⟨le, id, less⟩ := sound.cur w a cur
    exact ⟨le, id, Nat.lt_succ_of_lt less⟩
  assigned := sound.assigned
  gates := sound.gates
  fits := sound.fits

theorem level_pushPhi (e : Env) : Level e [] e.pushPhi where
  wires := SameWires.refl e
  extends_ := Netlist.Extends.refl e.netlist
  phis := ⟨_, rfl, rfl, rfl⟩
  distinct := List.nodup_nil
  fresh _ member := absurd member List.not_mem_nil
  later := Nat.le_refl _
  record _ member := absurd member List.not_mem_nil
  cur _ member := absurd member List.not_mem_nil
  others _ _ := rfl
  old _ _ := rfl

/-- The tables are as they were before a context, but for more gates and more records. -/
structure Restores (e₀ e : Env) : Prop where
  wires : ∀ w, e.wires w = e₀.wires w
  phis : e.phis = e₀.phis
  old : ∀ a ≤ e₀.lastAssign, e.asgns a = e₀.asgns a
  later : e₀.lastAssign ≤ e.lastAssign
  extends_ : Netlist.Extends e₀.netlist e.netlist
  netlist : e.netlist.Sound

theorem popWalk_spec (cur : PhiId) {fuel : Nat} (chain : Chain e p l none)
    (phi : ∀ a ∈ l, (e.asgns a).phi = cur) (enough : l.length < fuel) :
    ∃ e', popWalk cur fuel p e = .ok e' ∧ e' = { e with wires := e'.wires } ∧ SameWires e e' ∧
      (∀ w, (∀ a ∈ l, (e.asgns a).id ≠ w) → (e'.wires w).curAssign = (e.wires w).curAssign) ∧
      ∀ w previous, (∀ a ∈ l, (e.asgns a).id = w → (e.asgns a).prev = previous) →
        (∃ a ∈ l, (e.asgns a).id = w) → (e'.wires w).curAssign = previous := by
  induction l generalizing e p fuel with
  | nil =>
    obtain ⟨fuel, rfl⟩ := Fallible.fuel_succ enough
    obtain rfl := chain
    refine ⟨e, rfl, rfl, SameWires.refl e, fun _ _ => rfl, fun w previous _ some => ?_⟩
    obtain ⟨a, member, _⟩ := some
    exact absurd member List.not_mem_nil
  | cons a l ih =>
    obtain ⟨fuel, rfl⟩ := Fallible.fuel_succ enough
    obtain ⟨rfl, _, link, rest⟩ := chain
    obtain rfl := Option.some.inj link
    have step := ih (e := e.setCurAssign (e.asgns a).id (e.asgns a).prev) rest
      (fun b member => phi b (List.mem_cons_of_mem a member)) (Nat.lt_of_succ_lt_succ enough)
    obtain ⟨e', result, only, same, others, selves⟩ := step
    have curSelf : ((e.setCurAssign (e.asgns a).id (e.asgns a).prev).wires (e.asgns a).id).curAssign =
        (e.asgns a).prev := by
      simp [setCurAssign]
    have curOther : ∀ w, (e.asgns a).id ≠ w →
        ((e.setCurAssign (e.asgns a).id (e.asgns a).prev).wires w).curAssign = (e.wires w).curAssign := by
      intro w other
      simp [setCurAssign, Ne.symm other]
    have same' : SameWires e (e.setCurAssign (e.asgns a).id (e.asgns a).prev) := by
      intro w
      by_cases isW : w = (e.asgns a).id
      · subst isW
        simp [setCurAssign]
      · simp [setCurAssign, isW]
    refine ⟨e', ?_, ?_, same'.trans same, fun w outside => ?_, fun w previous all some => ?_⟩
    · unfold popWalk
      rw [check_of (phi a List.mem_cons_self)]
      exact result
    · rw [only]
      rfl
    · rw [others w fun b member => outside b (List.mem_cons_of_mem a member)]
      exact curOther w (outside a List.mem_cons_self)
    · by_cases later : ∃ b ∈ l, (e.asgns b).id = w
      · exact selves w previous (fun b member => all b (List.mem_cons_of_mem a member)) later
      have isW : (e.asgns a).id = w := by
        obtain ⟨b, member, isW⟩ := some
        rcases List.mem_cons.mp member with rfl | member
        · exact isW
        · exact absurd ⟨b, member, isW⟩ later
      rw [others w fun b member isW => later ⟨b, member, isW⟩, ← isW, curSelf]
      exact all a List.mem_cons_self isW

theorem Level.popPhi (level : Level e₀ l e) (sound : e.Sound) :
    ∃ phi e', e.popPhi = .ok (phi, e') ∧ Restores e₀ e' ∧ l.length = phi.nbr ∧ Chain e' phi.first l none ∧
      e'.asgns = e.asgns ∧ e'.lastAssign = e.lastAssign ∧ e'.netlist = e.netlist := by
  obtain ⟨phi, phis, nbr, chain⟩ := level.phis
  have current : e.currentPhi = e₀.phis.length := by
    unfold currentPhi
    rw [phis]
    rfl
  have enough : l.length < e.lastAssign + 2 :=
    Nat.lt_succ_of_le (chain.length_le fun a member => Nat.lt_succ_of_le (level.fresh a member).2)
  obtain ⟨e', result, only, same, others, selves⟩ :=
    popWalk_spec e.currentPhi (show Chain { e with phis := e₀.phis } phi.first l none from chain)
      (fun a member => current ▸ (level.record a member).1) enough
  refine ⟨phi, e', ?_, ?_, nbr, ?_, ?_, ?_, ?_⟩
  · unfold Env.popPhi
    rw [phis]
    show (popWalk e.currentPhi (e.lastAssign + 2) phi.first { e with phis := e₀.phis } >>= _) = _
    rw [result]
    rfl
  · refine
      { wires := fun w => ?_
        phis := by rw [only]
        old := fun a bound => by
          rw [only]
          exact level.old a bound
        later := by
          rw [only]
          exact level.later
        extends_ := by
          rw [only]
          exact level.extends_
        netlist := by
          rw [only]
          exact sound.netlist }
    have kept := level.wires.trans same w
    have cur : (e'.wires w).curAssign = (e₀.wires w).curAssign := by
      by_cases inside : ∃ a ∈ l, (e.asgns a).id = w
      · exact selves w _ (fun a member isW => isW ▸ (level.record a member).2.1) inside
      · have outside : ∀ a ∈ l, (e.asgns a).id ≠ w := fun a member isW => inside ⟨a, member, isW⟩
        exact (others w outside).trans (level.others w outside)
    cases here : e'.wires w
    cases there : e₀.wires w
    rw [here, there] at kept cur
    obtain ⟨rfl, rfl⟩ := kept
    obtain rfl := cur
    rfl
  · have links : e'.links = e.links := by
      rw [only]
      rfl
    unfold Chain
    rw [links]
    exact chain
  all_goals rw [only]

variable {e₁ e₂ e₃ : Env}

theorem Restores.refl (sound : e.Sound) : Restores e e :=
  ⟨fun _ => rfl, rfl, fun _ _ => rfl, Nat.le_refl _, Netlist.Extends.refl _, sound.netlist⟩

theorem Restores.trans (first : Restores e₁ e₂) (second : Restores e₂ e₃) : Restores e₁ e₃ where
  wires w := (second.wires w).trans (first.wires w)
  phis := second.phis.trans first.phis
  old a bound := (second.old a (Nat.le_trans bound first.later)).trans (first.old a bound)
  later := Nat.le_trans first.later second.later
  extends_ := first.extends_.trans second.extends_
  netlist := second.netlist

theorem Restores.sameWires (restores : Restores e₁ e₂) : SameWires e₁ e₂ := fun w => by
  rw [restores.wires w]
  exact ⟨rfl, rfl⟩

theorem Restores.last (restores : Restores e₁ e₂) (sound : e₁.Sound) (w : WireId) : e₂.last w = e₁.last w := by
  unfold Env.last
  rw [restores.wires w]
  cases cur : (e₁.wires w).curAssign with
  | none => rfl
  | some a =>
    show (e₂.asgns a).value = _
    rw [restores.old a (sound.cur w a cur).1]

theorem Restores.fits {n : Net} (restores : Restores e₁ e₂) (sound : e₁.Sound) (declared : e₁.Declared w)
    (fits : e₁.Fits w n) : e₂.Fits w n := by
  refine ⟨restores.extends_.valid fits.1, ?_⟩
  rw [restores.extends_.width n fits.1, restores.wires w, restores.extends_.width _ (sound.gates w declared).1]
  exact fits.2

theorem Restores.sound (restores : Restores e₁ e₂) (sound : e₁.Sound) : e₂.Sound where
  netlist := restores.netlist
  levels := restores.phis ▸ sound.levels
  cur w a cur := by
    rw [restores.wires w] at cur
    obtain ⟨le, id, less⟩ := sound.cur w a cur
    rw [restores.phis, restores.old a le]
    exact ⟨Nat.le_trans le restores.later, id, less⟩
  assigned w a cur := by
    rw [restores.wires w] at cur
    exact restores.sameWires.assignable.mpr (sound.assigned w a cur)
  gates w declared := by
    obtain ⟨valid, positive⟩ := sound.gates w (restores.sameWires.declared.mp declared)
    rw [restores.wires w, restores.extends_.width _ valid]
    exact ⟨restores.extends_.valid valid, positive⟩
  fits w declared := by
    have was := restores.sameWires.declared.mp declared
    rw [restores.last sound w]
    exact restores.fits sound was (sound.fits w was)

theorem Restores.level (restores : Restores e₁ e₂) (level : Level e₀ l e₁) : Level e₀ l e₂ := by
  have same : ∀ a ∈ l, e₂.asgns a = e₁.asgns a := fun a inside => restores.old a (level.fresh a inside).2
  have ids : (l.map fun a => (e₂.asgns a).id) = l.map fun a => (e₁.asgns a).id :=
    List.map_congr_left fun a inside => by rw [same a inside]
  exact
    { wires := level.wires.trans restores.sameWires
      extends_ := level.extends_.trans restores.extends_
      phis := by
        obtain ⟨phi, phis, nbr, chain⟩ := level.phis
        refine ⟨phi, restores.phis.trans phis, nbr, (Segment.congr fun a inside => ?_).mpr chain⟩
        unfold links
        rw [same a inside]
      distinct := by
        rw [ids]
        exact level.distinct
      fresh := fun a inside =>
        ⟨(level.fresh a inside).1, Nat.le_trans (level.fresh a inside).2 restores.later⟩
      later := Nat.le_trans level.later restores.later
      record := fun a inside => by
        rw [same a inside, restores.sameWires.assignable]
        exact level.record a inside
      cur := fun a inside => by
        rw [same a inside, restores.wires]
        exact level.cur a inside
      others := fun w outside => by
        rw [restores.wires w]
        exact level.others w fun a inside => same a inside ▸ outside a inside
      old := fun a bound => (restores.old a (Nat.le_trans bound level.later)).trans (level.old a bound) }

end Env

end Ghdl.Synth
