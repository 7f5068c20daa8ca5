import Ghdl.Synth.Phis

/-!
# Merging two contexts

`Merge_Phis` walks the two sorted chains together. Each wire of one of them is extracted once, with its values
at the ends of the two contexts, and is assigned the multiplexer of these values.
-/

namespace Ghdl.Synth

namespace Env

open Linked

variable {e e₀ e' : Env} {l l' ls rs m : List Assign} {p q : Option Assign} {a : Assign} {w : WireId}
  {n sel : Net} {g : Netlist.Given} {s : Nat}

/-- What is left of the chain of a context that is being merged. -/
structure Side (e : Env) (l m : List Assign) (p : Option Assign) : Prop where
  chain : Chain e p m none
  sorted : m.Pairwise fun a b => (e.asgns a).id < (e.asgns b).id
  apart : ∀ a ∈ m, a ∉ l
  le : ∀ a ∈ m, a ≤ e.lastAssign
  assignable : ∀ a ∈ m, e.Assignable (e.asgns a).id
  fits : ∀ a ∈ m, e.Fits (e.asgns a).id (e.asgns a).value

/-- The net of a wire at the end of a context. -/
def branch (e : Env) (m : List Assign) (w : WireId) : Net :=
  match m with
  | [] => e.last w
  | a :: m => if (e.asgns a).id = w then (e.asgns a).value else branch e m w

theorem branch_absent (absent : ∀ a ∈ m, (e.asgns a).id ≠ w) : e.branch m w = e.last w := by
  induction m with
  | nil => rfl
  | cons a m ih =>
    unfold branch
    rw [if_neg (absent a List.mem_cons_self)]
    exact ih fun b member => absent b (List.mem_cons_of_mem a member)

theorem branch_member (distinct : (m.map fun a => (e.asgns a).id).Nodup) (member : a ∈ m) :
    e.branch m (e.asgns a).id = (e.asgns a).value := by
  induction m with
  | nil => exact absurd member List.not_mem_nil
  | cons b m ih =>
    obtain ⟨fresh, rest⟩ := List.nodup_cons.mp distinct
    unfold branch
    rcases List.mem_cons.mp member with rfl | member
    · exact if_pos rfl
    · rw [if_neg fun same => fresh (List.mem_map.mpr ⟨a, member, same.symm⟩)]
      exact ih rest member

theorem Side.tail (side : Side e l (a :: m) p) : Side e l m (e.asgns a).chain where
  chain := by
    obtain ⟨_, _, link, rest⟩ := side.chain
    obtain rfl := Option.some.inj link
    exact rest
  sorted := side.sorted.tail
  apart b member := side.apart b (List.mem_cons_of_mem a member)
  le b member := side.le b (List.mem_cons_of_mem a member)
  assignable b member := side.assignable b (List.mem_cons_of_mem a member)
  fits b member := side.fits b (List.mem_cons_of_mem a member)

theorem Side.above (side : Side e l (a :: m) p) : ∀ b ∈ m, (e.asgns a).id < (e.asgns b).id :=
  (List.pairwise_cons.mp side.sorted).1

theorem Side.absent (side : Side e l m p) (before : ∀ a, p = some a → w < (e.asgns a).id) :
    ∀ a ∈ m, w < (e.asgns a).id := by
  cases m with
  | nil => exact fun a member => absurd member List.not_mem_nil
  | cons b m =>
    intro a member
    have first := before b side.chain.1
    rcases List.mem_cons.mp member with rfl | member
    · exact first
    · exact Nat.lt_trans first (side.above a member)

/-- A wire is extracted with its nets at the ends of the two contexts. -/
structure Extracts (e : Env) (l ls rs : List Assign) (x : Extract) (ls' rs' : List Assign) : Prop where
  left : Side e l ls' x.tAsgns
  right : Side e l rs' x.fAsgns
  assignable : e.Assignable x.w
  te : x.te = e.branch ls x.w
  fe : x.fe = e.branch rs x.w
  fitsTe : e.Fits x.w x.te
  fitsFe : e.Fits x.w x.fe
  /-- The other wires are left. -/
  others : ∀ w, w ≠ x.w → e.branch ls' w = e.branch ls w ∧ e.branch rs' w = e.branch rs w
  absent : ∀ a ∈ ls' ++ rs', (e.asgns a).id ≠ x.w
  shorter : ls'.length + rs'.length < ls.length + rs.length

theorem branch_tail (other : w ≠ (e.asgns a).id) : e.branch m w = e.branch (a :: m) w := by
  conv_rhs => unfold branch
  rw [if_neg other.symm]

theorem branch_head : e.branch (a :: m) (e.asgns a).id = (e.asgns a).value := by
  unfold branch
  exact if_pos rfl

theorem extractFalse_spec (sound : e.Sound) (left : Side e l ls p) (right : Side e l (a :: rs) q)
    (before : ∀ b, p = some b → (e.asgns a).id < (e.asgns b).id) :
    ∃ x, e.extractFalse p a = .ok x ∧ Extracts e l ls (a :: rs) x ls rs := by
  have able := right.assignable a List.mem_cons_self
  have absent := left.absent before
  refine ⟨⟨(e.asgns a).id, e.last (e.asgns a).id, (e.asgns a).value, p, (e.asgns a).chain⟩, ?_, ?_⟩
  · unfold extractFalse
    dsimp only
    rw [getLastAssignedValue_last sound, getAssignValue_eq able]
    rfl
  · exact
      { left, right := right.tail, assignable := able
        te := (branch_absent fun b member => Nat.ne_of_gt (absent b member)).symm
        fe := branch_head.symm
        fitsTe := sound.fits _ able.declared
        fitsFe := right.fits a List.mem_cons_self
        others := fun w other => ⟨rfl, branch_tail other⟩
        absent := fun b member => by
          rcases List.mem_append.mp member with member | member
          · exact Nat.ne_of_gt (absent b member)
          · exact Nat.ne_of_gt (right.above b member)
        shorter := Nat.lt_succ_self _ }

theorem extractTrue_spec (sound : e.Sound) (left : Side e l (a :: ls) p) (right : Side e l rs q)
    (before : ∀ b, q = some b → (e.asgns a).id < (e.asgns b).id) :
    ∃ x, e.extractTrue a q = .ok x ∧ Extracts e l (a :: ls) rs x ls rs := by
  have able := left.assignable a List.mem_cons_self
  have absent := right.absent before
  refine ⟨⟨(e.asgns a).id, (e.asgns a).value, e.last (e.asgns a).id, (e.asgns a).chain, q⟩, ?_, ?_⟩
  · unfold extractTrue
    dsimp only
    rw [getLastAssignedValue_last sound, getAssignValue_eq able]
    rfl
  · exact
      { left := left.tail, right, assignable := able
        te := branch_head.symm
        fe := (branch_absent fun b member => Nat.ne_of_gt (absent b member)).symm
        fitsTe := left.fits a List.mem_cons_self
        fitsFe := sound.fits _ able.declared
        others := fun w other => ⟨branch_tail other, rfl⟩
        absent := fun b member => by
          rcases List.mem_append.mp member with member | member
          · exact Nat.ne_of_gt (left.above b member)
          · exact Nat.ne_of_gt (absent b member)
        shorter := Nat.add_lt_add_right (Nat.lt_succ_self _) _ }

theorem extractBoth_spec {t f : Assign} (left : Side e l (t :: ls) p) (right : Side e l (f :: rs) q)
    (same : (e.asgns f).id = (e.asgns t).id) :
    ∃ x, e.extractBoth t f = .ok x ∧ Extracts e l (t :: ls) (f :: rs) x ls rs := by
  have ableLeft := left.assignable t List.mem_cons_self
  have ableRight := right.assignable f List.mem_cons_self
  refine ⟨⟨(e.asgns f).id, (e.asgns t).value, (e.asgns f).value, (e.asgns t).chain, (e.asgns f).chain⟩, ?_, ?_⟩
  · unfold extractBoth
    rw [check_of same, getAssignValue_eq ableLeft, getAssignValue_eq ableRight]
    rfl
  exact
    { left := left.tail, right := right.tail, assignable := ableRight
      te := by
        show _ = e.branch (t :: ls) (e.asgns f).id
        rw [same, branch_head]
      fe := branch_head.symm
      fitsTe := by
        show e.Fits (e.asgns f).id _
        rw [same]
        exact left.fits t List.mem_cons_self
      fitsFe := right.fits f List.mem_cons_self
      others := fun w other => ⟨branch_tail (same ▸ other), branch_tail other⟩
      absent := fun b member => by
        rcases List.mem_append.mp member with member | member
        · show _ ≠ (e.asgns f).id
          rw [same]
          exact Nat.ne_of_gt (left.above b member)
        · exact Nat.ne_of_gt (right.above b member)
      shorter := by
        rw [List.length_cons, List.length_cons]
        omega }

theorem extractWire_spec (sound : e.Sound) (left : Side e l ls p) (right : Side e l rs q)
    (some : ¬(p = none ∧ q = none)) : ∃ x ls' rs', e.extractWire p q = .ok x ∧ Extracts e l ls rs x ls' rs' := by
  cases ls with
  | nil =>
    obtain rfl := left.chain
    cases rs with
    | nil =>
      obtain rfl := right.chain
      exact absurd ⟨rfl, rfl⟩ some
    | cons f rs =>
      obtain ⟨rfl, _⟩ := right.chain
      obtain ⟨x, result, extracts⟩ := extractFalse_spec sound left right fun b first => by cases first
      exact ⟨x, [], rs, result, extracts⟩
  | cons t ls =>
    obtain ⟨rfl, _⟩ := left.chain
    cases rs with
    | nil =>
      obtain rfl := right.chain
      obtain ⟨x, result, extracts⟩ := extractTrue_spec sound left right fun b first => by cases first
      exact ⟨x, ls, [], result, extracts⟩
    | cons f rs =>
      obtain ⟨rfl, _⟩ := right.chain
      unfold extractWire
      by_cases falseFirst : (e.asgns f).id < (e.asgns t).id
      · obtain ⟨x, result, extracts⟩ := extractFalse_spec sound left right fun b first =>
          Option.some.inj first ▸ falseFirst
        exact ⟨x, t :: ls, rs, (if_pos falseFirst).trans result, extracts⟩
      by_cases trueFirst : (e.asgns t).id < (e.asgns f).id
      · obtain ⟨x, result, extracts⟩ := extractTrue_spec sound left right fun b first =>
          Option.some.inj first ▸ trueFirst
        exact ⟨x, ls, f :: rs, (if_neg falseFirst).trans ((if_pos trueFirst).trans result), extracts⟩
      · have same : (e.asgns f).id = (e.asgns t).id :=
          Nat.le_antisymm (Nat.le_of_not_lt trueFirst) (Nat.le_of_not_lt falseFirst)
        obtain ⟨x, result, extracts⟩ := extractBoth_spec left right same
        exact ⟨x, ls, rs, (if_neg falseFirst).trans ((if_neg trueFirst).trans result), extracts⟩

section MoreGates

variable {netlist : Netlist}

theorem Fits.extends_ (fits : e.Fits w n) (sound : e.Sound) (declared : e.Declared w)
    (extension : Netlist.Extends e.netlist netlist) : Env.Fits { e with netlist } w n := by
  refine ⟨extension.valid fits.1, ?_⟩
  show netlist.getWidth n = netlist.getWidth (e.wires w).gate
  rw [extension.width n fits.1, extension.width _ (sound.gates w declared).1]
  exact fits.2

theorem Sound.withNetlist (sound : e.Sound) (extension : Netlist.Extends e.netlist netlist)
    (built : netlist.Sound) : Env.Sound { e with netlist } where
  netlist := built
  levels := sound.levels
  cur := sound.cur
  assigned := sound.assigned
  gates w declared := by
    obtain ⟨valid, positive⟩ := sound.gates w declared
    refine ⟨extension.valid valid, ?_⟩
    show netlist.getWidth (e.wires w).gate ≠ 0
    rw [extension.width _ valid]
    exact positive
  fits w declared := (sound.fits w declared).extends_ sound declared extension

theorem Level.withNetlist (level : Level e₀ l e) (extension : Netlist.Extends e.netlist netlist) :
    Level e₀ l { e with netlist } :=
  { level with extends_ := level.extends_.trans extension }

theorem Side.withNetlist (side : Side e l m p) (sound : e.Sound) (extension : Netlist.Extends e.netlist netlist) :
    Side { e with netlist } l m p :=
  { side with
    fits := fun a member => (side.fits a member).extends_ sound (side.assignable a member).declared extension }

theorem Side.assigned (side : Side e l m p) (assigned : Assigned e₀ l e w n l' e') : Side e' l' m p := by
  have same : ∀ a ∈ m, e'.asgns a = e.asgns a := fun a member =>
    assigned.frame a (side.le a member) (side.apart a member)
  have ids : (m.map fun a => (e'.asgns a).id) = m.map fun a => (e.asgns a).id :=
    List.map_congr_left fun a member => by rw [same a member]
  refine
    { chain := (Segment.congr fun a member => by unfold links; rw [same a member]).mpr side.chain
      sorted := ?_
      apart := fun a member inside => ?_
      le := fun a member => Nat.le_trans (side.le a member) assigned.later
      assignable := fun a member => ?_
      fits := fun a member => ?_ }
  · have sorted := List.pairwise_map.mpr side.sorted
    rw [← ids] at sorted
    exact List.pairwise_map.mp sorted
  · rcases assigned.cells a inside with inside | new
    · exact side.apart a member inside
    · exact Nat.not_le_of_lt new (side.le a member)
  · rw [same a member]
    exact assigned.wires.assignable.mpr (side.assignable a member)
  · rw [same a member]
    unfold Fits
    rw [assigned.netlist, (assigned.wires _).2]
    exact side.fits a member

theorem branch_withNetlist (netlist : Netlist) : Env.branch { e with netlist } m w = e.branch m w := by
  induction m with
  | nil => rfl
  | cons a m ih =>
    unfold branch
    rw [ih]

theorem Side.branch_fits (side : Side e l m p) (sound : e.Sound) (declared : e.Declared w) :
    e.Fits w (e.branch m w) := by
  induction m generalizing p with
  | nil => exact sound.fits w declared
  | cons a m ih =>
    unfold branch
    split
    · next isW =>
      have fits := side.fits a List.mem_cons_self
      rwa [isW] at fits
    · exact ih side.tail

theorem Side.branch_assigned {w' : WireId} (side : Side e l m p) (assigned : Assigned e₀ l e w n l' e')
    (other : w' ≠ w) : e'.branch m w' = e.branch m w' := by
  have same : ∀ a ∈ m, e'.asgns a = e.asgns a := fun a member =>
    assigned.frame a (side.le a member) (side.apart a member)
  clear side
  induction m with
  | nil => exact assigned.others w' other
  | cons a m ih =>
    unfold branch
    rw [same a List.mem_cons_self, ih fun b member => same b (List.mem_cons_of_mem a member)]

end MoreGates

/-- The tables after a merge: each wire is assigned the net that it has at the end of the context that
the selector chooses. -/
structure Merged (e₀ e : Env) (g : Netlist.Given) (chosen : List Assign) (l' : List Assign) (e' : Env) :
    Prop where
  level : Level e₀ l' e'
  sound : e'.Sound
  wires : SameWires e e'
  extends_ : Netlist.Extends e.netlist e'.netlist
  value : ∀ w v, e.Declared w → e.netlist.Evaluates g (e.branch chosen w) v →
    e'.netlist.Evaluates g (e'.last w) v

theorem mergeLoop_spec {fuel : Nat} (level : Level e₀ l e) (sound₀ : e₀.Sound) (sound : e.Sound)
    (left : Side e l ls p) (right : Side e l rs q) (validSel : e.netlist.ValidNet sel)
    (bit : e.netlist.getWidth sel = 1) (selValue : e.netlist.Evaluates g sel s)
    (given : g.base ≤ e.netlist.lastNet) (enough : ls.length + rs.length < fuel) :
    ∃ e' l', mergeLoop sel fuel p q e = .ok e' ∧ Merged e₀ e g (if s % 2 = 0 then rs else ls) l' e' := by
  induction fuel generalizing e l ls rs p q with
  | zero => exact absurd enough (Nat.not_lt_zero _)
  | succ fuel ih =>
    unfold mergeLoop
    by_cases finished : p = none ∧ q = none
    · rw [if_pos finished]
      obtain ⟨rfl, rfl⟩ := finished
      have noLeft : ls = [] := by
        cases ls with
        | nil => rfl
        | cons a ls => cases left.chain.1
      have noRight : rs = [] := by
        cases rs with
        | nil => rfl
        | cons a rs => cases right.chain.1
      subst noLeft noRight
      refine ⟨e, l, rfl, level, sound, SameWires.refl e, Netlist.Extends.refl _, fun w v _ evaluates => ?_⟩
      rw [ite_self] at evaluates
      exact evaluates
    rw [if_neg finished]
    obtain ⟨x, ls', rs', extract, extracts⟩ := extractWire_spec sound left right finished
    have declared := extracts.assignable.declared
    have widths : e.netlist.getWidth x.te = e.netlist.getWidth x.fe := extracts.fitsTe.2.trans extracts.fitsFe.2.symm
    have positive : e.netlist.getWidth x.fe ≠ 0 := by
      rw [extracts.fitsFe.2]
      exact (sound.gates x.w declared).2
    obtain ⟨netlist, mux, built⟩ := Netlist.buildMux2_spec sound.netlist validSel extracts.fitsFe.1
      extracts.fitsTe.1 positive widths bit
    have sound₁ := sound.withNetlist built.extends_ built.sound
    have fits₁ : Env.Fits { e with netlist } x.w (e.netlist.lastNet + 1) := by
      refine ⟨⟨Nat.succ_pos _, Nat.le_of_eq built.lastNet.symm⟩, ?_⟩
      show netlist.getWidth _ = netlist.getWidth (e.wires x.w).gate
      rw [built.width, extracts.fitsFe.2, built.extends_.width _ (sound.gates x.w declared).1]
    obtain ⟨e₂, l₂, assign, assigned⟩ :=
      (level.withNetlist built.extends_).phiAssign sound₀ sound₁ extracts.assignable fits₁
    have extends₂ : Netlist.Extends e.netlist e₂.netlist := by
      rw [assigned.netlist]
      exact built.extends_
    have left₁ := extracts.left.withNetlist sound built.extends_
    have right₁ := extracts.right.withNetlist sound built.extends_
    have step := ih assigned.level assigned.sound (left₁.assigned assigned) (right₁.assigned assigned)
      (extends₂.valid validSel) ((extends₂.width sel validSel).trans bit)
      (selValue.extends extends₂ sound.netlist validSel) (Nat.le_trans given extends₂.lastNet)
      (Nat.lt_of_lt_of_le extracts.shorter (Nat.le_of_lt_succ enough))
    obtain ⟨e', l', result, merged⟩ := step
    refine ⟨e', l', ?_, merged.level, merged.sound, assigned.wires.trans merged.wires,
      extends₂.trans merged.extends_, fun w v able evaluates => ?_⟩
    · rw [extract]
      show (e.netlist.buildMux2 sel x.fe x.te >>= _) = _
      rw [mux]
      show (Env.phiAssign { e with netlist } x.w (e.netlist.lastNet + 1) >>= _) = _
      rw [assign]
      exact result
    · refine merged.value w v (assigned.wires.declared.mpr able) ?_
      by_cases isW : w = x.w
      · -- The wire is not extracted again.
        subst isW
        have absent : ∀ a ∈ (if s % 2 = 0 then rs' else ls'), (e₂.asgns a).id ≠ x.w := by
          intro a member
          have inside : a ∈ ls' ++ rs' := by
            split at member
            · exact List.mem_append_right ls' member
            · exact List.mem_append_left rs' member
          have same : e₂.asgns a = e.asgns a := by
            rcases List.mem_append.mp inside with member | member
            · exact assigned.frame a (extracts.left.le a member) (extracts.left.apart a member)
            · exact assigned.frame a (extracts.right.le a member) (extracts.right.apart a member)
          rw [same]
          exact extracts.absent a inside
        rw [branch_absent absent, assigned.self, assigned.netlist]
        have chosen : ∃ o, [sel, x.fe, x.te][s % 2 + 1]? = some o ∧ e.netlist.ValidNet o ∧
            e.netlist.Evaluates g o v := by
          by_cases zero : s % 2 = 0
          · rw [if_pos zero, ← extracts.fe] at evaluates
            exact ⟨x.fe, by rw [zero]; rfl, extracts.fitsFe.1, evaluates⟩
          · have one : s % 2 = 1 := by omega
            rw [if_neg zero, ← extracts.te] at evaluates
            exact ⟨x.te, by rw [one]; rfl, extracts.fitsTe.1, evaluates⟩
        obtain ⟨o, isO, valid, value⟩ := chosen
        exact built.selects sound.netlist given (.inl ⟨rfl, rfl⟩) validSel rfl selValue valid isO value
      · obtain ⟨sameLeft, sameRight⟩ := extracts.others w isW
        rw [← branch_withNetlist netlist] at sameLeft sameRight
        by_cases zero : s % 2 = 0
        · rw [if_pos zero] at evaluates ⊢
          rw [right₁.branch_assigned assigned isW, sameRight]
          exact evaluates.extends extends₂ sound.netlist (right.branch_fits sound able).1
        · rw [if_neg zero] at evaluates ⊢
          rw [left₁.branch_assigned assigned isW, sameLeft]
          exact evaluates.extends extends₂ sound.netlist (left.branch_fits sound able).1

/-- A context that has ended, with its records. -/
structure Ended (e : Env) (l m : List Assign) (phi : PhiType) : Prop where
  chain : Chain e phi.first m none
  length : m.length = phi.nbr
  distinct : (m.map fun a => (e.asgns a).id).Nodup
  apart : ∀ a ∈ m, a ∉ l
  le : ∀ a ∈ m, a ≤ e.lastAssign
  assignable : ∀ a ∈ m, e.Assignable (e.asgns a).id
  fits : ∀ a ∈ m, e.Fits (e.asgns a).id (e.asgns a).value

variable {phi : PhiType} {lt lf : List Assign} {t f : PhiType}

section

variable (rechained : Rechained e e' m)
include rechained

theorem Rechained.id (a : Assign) : (e'.asgns a).id = (e.asgns a).id := by
  rw [rechained.record a]

theorem Rechained.value (a : Assign) : (e'.asgns a).value = (e.asgns a).value := by
  rw [rechained.record a]

theorem Rechained.last (w : WireId) : e'.last w = e.last w := by
  unfold Env.last
  rw [rechained.rest]
  dsimp only
  cases (e.wires w).curAssign with
  | none => rfl
  | some a => exact rechained.value a

theorem Rechained.assignable : e'.Assignable w ↔ e.Assignable w := by
  rw [rechained.rest]
  exact Iff.rfl

theorem Rechained.fits : e'.Fits w n ↔ e.Fits w n := by
  rw [rechained.rest]
  exact Iff.rfl

theorem Rechained.lastAssign : e'.lastAssign = e.lastAssign := by
  rw [rechained.rest]

theorem Rechained.netlist : e'.netlist = e.netlist := by
  rw [rechained.rest]

theorem Rechained.sameWires : SameWires e e' := by
  rw [rechained.rest]
  exact SameWires.refl e

theorem Rechained.curAssign (w : WireId) :
    (e'.wires w).curAssign = (e.wires w).curAssign := by
  rw [rechained.rest]

theorem Rechained.phis : e'.phis = e.phis := by
  rw [rechained.rest]

end

theorem Sound.rechained (sound : e.Sound) (rechained : Rechained e e' m) : e'.Sound where
  netlist := rechained.netlist ▸ sound.netlist
  levels := rechained.phis ▸ sound.levels
  cur w a cur := by
    rw [rechained.curAssign] at cur
    rw [rechained.lastAssign, rechained.phis, rechained.record a]
    exact sound.cur w a cur
  assigned w a cur := by
    rw [rechained.assignable]
    rw [rechained.curAssign] at cur
    exact sound.assigned w a cur
  gates w declared := by
    rw [rechained.netlist, (rechained.sameWires w).2]
    exact sound.gates w (rechained.sameWires.declared.mp declared)
  fits w declared := by
    rw [rechained.fits, rechained.last]
    exact sound.fits w (rechained.sameWires.declared.mp declared)

theorem Level.rechained (level : Level e₀ l e) (rechained : Rechained e e' m) (apart : ∀ a ∈ m, a ∉ l)
    (new : ∀ a ∈ m, e₀.lastAssign < a) : Level e₀ l e' where
  wires := level.wires.trans rechained.sameWires
  extends_ := rechained.netlist ▸ level.extends_
  phis := by
    obtain ⟨phi, phis, nbr, chain⟩ := level.phis
    exact ⟨phi, rechained.phis.trans phis, nbr, (rechained.chain fun a inside member => apart a member inside).mpr chain⟩
  distinct := by
    have ids : (fun a => (e'.asgns a).id) = fun a => (e.asgns a).id := funext rechained.id
    rw [ids]
    exact level.distinct
  fresh a inside := rechained.lastAssign ▸ level.fresh a inside
  later := rechained.lastAssign ▸ level.later
  record a inside := by
    rw [rechained.assignable, rechained.record a]
    exact level.record a inside
  cur a inside := by
    rw [rechained.id, rechained.curAssign]
    exact level.cur a inside
  others w outside := by
    rw [rechained.curAssign]
    exact level.others w fun a inside => rechained.id a ▸ outside a inside
  old a bound := (rechained.outside a fun member => Nat.not_le_of_lt (new a member) bound).trans (level.old a bound)

theorem Ended.rechained (ended : Ended e l lf phi) (rechained : Rechained e e' m) (apart : ∀ a ∈ lf, a ∉ m) :
    Ended e' l lf phi where
  chain := (rechained.chain apart).mpr ended.chain
  length := ended.length
  distinct := by
    have ids : (fun a => (e'.asgns a).id) = fun a => (e.asgns a).id := funext rechained.id
    rw [ids]
    exact ended.distinct
  apart := ended.apart
  le a member := rechained.lastAssign ▸ ended.le a member
  assignable a member := by
    rw [rechained.id, rechained.assignable]
    exact ended.assignable a member
  fits a member := by
    rw [rechained.id, rechained.value, rechained.fits]
    exact ended.fits a member

theorem Side.rechained (side : Side e l lf p) (rechained : Rechained e e' m) (apart : ∀ a ∈ lf, a ∉ m) :
    Side e' l lf p where
  chain := (rechained.chain apart).mpr side.chain
  sorted := side.sorted.imp fun {a b} less => by
    rw [rechained.id, rechained.id]
    exact less
  apart := side.apart
  le a member := rechained.lastAssign ▸ side.le a member
  assignable a member := by
    rw [rechained.id, rechained.assignable]
    exact side.assignable a member
  fits a member := by
    rw [rechained.id, rechained.value, rechained.fits]
    exact side.fits a member

theorem Ended.sort (ended : Ended e l m phi) :
    ∃ first e' m', e.sortPhi phi = .ok (first, e') ∧ Side e' l m' first ∧ m'.Perm m ∧ Rechained e e' m := by
  obtain ⟨first, e', m', result, chain, perm, sorted, rechained⟩ := sortPhi_spec ended.chain ended.length ended.distinct
  refine ⟨first, e', m', result, ?_, perm, rechained⟩
  exact
    { chain
      sorted := sorted.imp fun {a b} less => by
        rw [rechained.id, rechained.id]
        exact less
      apart := fun a member => ended.apart a (perm.mem_iff.mp member)
      le := fun a member => rechained.lastAssign ▸ ended.le a (perm.mem_iff.mp member)
      assignable := fun a member => by
        rw [rechained.id, rechained.assignable]
        exact ended.assignable a (perm.mem_iff.mp member)
      fits := fun a member => by
        rw [rechained.id, rechained.value, rechained.fits]
        exact ended.fits a (perm.mem_iff.mp member) }

theorem Ended.branch_sorted {m' : List Assign} (ended : Ended e l m phi) (perm : m'.Perm m)
    (ids : ∀ a, (e'.asgns a).id = (e.asgns a).id) (values : ∀ a, (e'.asgns a).value = (e.asgns a).value)
    (lasts : ∀ w, e'.last w = e.last w) (w : WireId) : e'.branch m' w = e.branch m w := by
  by_cases inside : ∃ a ∈ m, (e.asgns a).id = w
  · obtain ⟨a, member, rfl⟩ := inside
    have distinct : (m'.map fun a => (e'.asgns a).id).Nodup := by
      have same : (fun a => (e'.asgns a).id) = fun a => (e.asgns a).id := funext ids
      rw [same]
      exact (perm.map _).nodup_iff.mpr ended.distinct
    rw [branch_member ended.distinct member, ← values a, ← ids a]
    exact branch_member distinct (perm.mem_iff.mpr member)
  · have outside : ∀ a ∈ m, (e.asgns a).id ≠ w := fun a member same => inside ⟨a, member, same⟩
    rw [branch_absent outside, ← lasts w]
    refine branch_absent fun a member => ?_
    rw [ids]
    exact outside a (perm.mem_iff.mp member)

theorem Level.ended {e₁ e₂ e₃ : Env} (outer : Level e₀ l e) (sound : e.Sound) (inner : Level e m e₁) (sound₁ : e₁.Sound)
    (length : m.length = phi.nbr) (chain : Chain e₂ phi.first m none) (asgns : e₂.asgns = e₁.asgns)
    (lastAssign : e₂.lastAssign = e₁.lastAssign) (netlist : e₂.netlist = e₁.netlist)
    (restores : Restores e e₂) (later : Restores e₂ e₃) : Ended e₃ l m phi ∧ ∀ w, e₃.branch m w = e₁.last w := by
  have same : ∀ a ∈ m, e₃.asgns a = e₁.asgns a := by
    intro a inside
    rw [later.old a (lastAssign ▸ (inner.fresh a inside).2), asgns]
  have ids : (m.map fun a => (e₃.asgns a).id) = m.map fun a => (e₁.asgns a).id :=
    List.map_congr_left fun a inside => by rw [same a inside]
  have wires : SameWires e₁ e₃ := fun w => by
    rw [later.wires w, restores.wires w, (inner.wires w).1, (inner.wires w).2]
    exact ⟨rfl, rfl⟩
  have more : Netlist.Extends e₁.netlist e₃.netlist := netlist ▸ later.extends_
  have ended : Ended e₃ l m phi :=
    { chain := by
        refine (Segment.congr fun a inside => ?_).mpr chain
        unfold links
        rw [same a inside, asgns]
      length
      distinct := by
        rw [ids]
        exact inner.distinct
      apart := fun a inside inOuter =>
        Nat.not_le_of_lt (inner.fresh a inside).1 (outer.fresh a inOuter).2
      le := fun a inside => Nat.le_trans (lastAssign ▸ (inner.fresh a inside).2) later.later
      assignable := fun a inside => by
        rw [same a inside, wires.assignable]
        exact (inner.record a inside).2.2
      fits := fun a inside => by
        rw [same a inside]
        have declared := (inner.record a inside).2.2.declared
        have fits := sound₁.fits _ declared
        rw [last_eq_of_cur (inner.cur a inside)] at fits
        refine ⟨more.valid fits.1, ?_⟩
        rw [more.width _ fits.1, (wires _).2, more.width _ (sound₁.gates _ declared).1]
        exact fits.2 }
  refine ⟨ended, fun w => ?_⟩
  by_cases inside : ∃ a ∈ m, (e₁.asgns a).id = w
  · obtain ⟨a, member, rfl⟩ := inside
    rw [last_eq_of_cur (inner.cur a member), ← same a member]
    exact branch_member ended.distinct member
  have outside : ∀ a ∈ m, (e₁.asgns a).id ≠ w := fun a member isW => inside ⟨a, member, isW⟩
  have absent : ∀ a ∈ m, (e₃.asgns a).id ≠ w := fun a member => same a member ▸ outside a member
  rw [branch_absent absent, (restores.trans later).last sound w]
  unfold Env.last
  rw [inner.others w outside, (inner.wires w).2]
  cases cur : (e.wires w).curAssign with
  | none => rfl
  | some a =>
    show _ = (e₁.asgns a).value
    rw [inner.old a (sound.cur w a cur).1]

/-- `Merge_Phis` assigns to each wire its value at the end of the context that the selector chooses. -/
theorem mergePhis_spec (level : Level e₀ l e) (sound₀ : e₀.Sound) (sound : e.Sound) (left : Ended e l lt t)
    (right : Ended e l lf f) (disjoint : ∀ a ∈ lf, a ∉ lt) (newLeft : ∀ a ∈ lt, e₀.lastAssign < a)
    (newRight : ∀ a ∈ lf, e₀.lastAssign < a) (validSel : e.netlist.ValidNet sel)
    (bit : e.netlist.getWidth sel = 1) (selValue : e.netlist.Evaluates g sel s) (given : g.base ≤ e.netlist.lastNet) :
    ∃ e' l', e.mergePhis sel t f = .ok e' ∧ Merged e₀ e g (if s % 2 = 0 then lf else lt) l' e' := by
  obtain ⟨p, e₁, lt', sortLeft, left₁, permLeft, rechained₁⟩ := left.sort
  have right₁ := right.rechained rechained₁ disjoint
  obtain ⟨q, e₂, lf', sortRight, right₂, permRight, rechained₂⟩ := right₁.sort
  have left₂ := left₁.rechained rechained₂ fun a member inRight => disjoint a inRight (permLeft.mem_iff.mp member)
  have level₂ := (level.rechained rechained₁ left.apart newLeft).rechained rechained₂ right.apart newRight
  have sound₂ := (sound.rechained rechained₁).rechained rechained₂
  have netlist : e₂.netlist = e.netlist := rechained₂.netlist.trans rechained₁.netlist
  have same : SameWires e e₂ := rechained₁.sameWires.trans rechained₂.sameWires
  have ids : ∀ a, (e₂.asgns a).id = (e.asgns a).id := fun a => (rechained₂.id a).trans (rechained₁.id a)
  have values : ∀ a, (e₂.asgns a).value = (e.asgns a).value := fun a =>
    (rechained₂.value a).trans (rechained₁.value a)
  have lasts : ∀ w, e₂.last w = e.last w := fun w => (rechained₂.last w).trans (rechained₁.last w)
  have enough : lt'.length + lf'.length < t.nbr + f.nbr + 1 := by
    rw [permLeft.length_eq, permRight.length_eq, left.length, right.length]
    exact Nat.lt_succ_self _
  rw [← netlist] at validSel bit selValue given
  obtain ⟨e', l', result, merged⟩ := mergeLoop_spec level₂ sound₀ sound₂ left₂ right₂ validSel bit selValue given enough
  refine ⟨e', l', ?_, merged.level, merged.sound, same.trans merged.wires, netlist ▸ merged.extends_,
    fun w v declared evaluates => merged.value w v (same.declared.mpr declared) ?_⟩
  · unfold mergePhis
    rw [sortLeft]
    show (e₁.sortPhi f >>= _) = _
    rw [sortRight]
    exact result
  · rw [netlist]
    by_cases zero : s % 2 = 0
    · rw [if_pos zero] at evaluates ⊢
      rw [right.branch_sorted permRight ids values lasts]
      exact evaluates
    · rw [if_neg zero] at evaluates ⊢
      rw [left.branch_sorted permLeft ids values lasts]
      exact evaluates

end Env

end Ghdl.Synth
