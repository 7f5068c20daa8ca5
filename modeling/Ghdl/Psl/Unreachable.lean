import Ghdl.Psl.Language
import Ghdl.Psl.Optimize

/-!
# Language without unreachable states

`Remove_Unreachable_States` keeps the start state and the final state, and every word between them: a state
on the way is reached from the start state and reaches the final state.
-/

namespace Ghdl.Psl

open Automata

namespace Tables

variable {t t' t'' : Tables} {n n' n'' : Nfa} {s p q root keep : NfaState} {e : NfaEdge}
  {x : Option BoolNode} {es : List NfaEdge} {dead ss marked : List NfaState} {w : List Valuation} {side : Side}

theorem RemovesEdges.operand (removes : RemovesEdges t es t') (operand : Operand t n) : t'.Operand n := by
  have old : ∀ {p x q}, t'.Arc p x q → t.Arc p x q := by
    intro p x q arc
    obtain ⟨e, ⟨live, -⟩, ends⟩ := removes.arc.mp arc
    exact ⟨e, live, ends⟩
  have owned := operand.owned
  refine ⟨removes.sound, fun p q arc => operand.loud p q (old arc), ?_⟩
  exact
    { nodup := owned.nodup, used := fun s inside => removes.same.allocated.mpr (owned.used s inside)
      closed := fun arc => owned.closed (old arc), start := owned.start, final := owned.final }

/-- What the removal of the states DEAD does. -/
structure RemovesStates (t : Tables) (n : Nfa) (dead : List NfaState) (n' : Nfa) (t' : Tables) :
    Prop where
  allocated : ∀ p, t'.Allocated p ↔ t.Allocated p ∧ p ∉ dead
  live : ∀ e, t'.Live e ↔ t.Live e ∧ t.edgeSrc e ∉ dead ∧ t.edgeDest e ∉ dead
  edgeSrc : t'.edgeSrc = t.edgeSrc
  edgeDest : t'.edgeDest = t.edgeDest
  edgeExpr : t'.edgeExpr = t.edgeExpr
  index : t'.nodeIndex = t.nodeIndex
  terms : t'.terms = t.terms
  nfa : n' = { n with states := n.states.filter (· ∉ dead) }
  sound : t'.Sound

theorem RemovesStates.nil (sound : t.Sound) : RemovesStates t n [] n t where
  allocated p := by simp
  live e := by simp
  edgeSrc := rfl
  edgeDest := rfl
  edgeExpr := rfl
  index := rfl
  terms := rfl
  nfa := by simp
  sound := sound

theorem RemovesState.states (nodup : n.states.Nodup) (removes : RemovesState t n s n' t') :
    RemovesStates t n [s] n' t' where
  allocated p := by rw [removes.allocated, List.mem_singleton]
  live e := by rw [removes.live, List.mem_singleton, List.mem_singleton]
  edgeSrc := removes.edgeSrc
  edgeDest := removes.edgeDest
  edgeExpr := removes.edgeExpr
  index := removes.index
  terms := removes.terms
  nfa := by
    rw [removes.nfa, nodup.erase_eq_filter]
    refine congrArg (fun states => { n with states }) (List.filter_congr fun p _ => ?_)
    by_cases here : p = s <;> simp [here]
  sound := removes.sound

theorem RemovesStates.trans {dead' : List NfaState} (first : RemovesStates t n dead n' t')
    (second : RemovesStates t' n' dead' n'' t'') : RemovesStates t n (dead ++ dead') n'' t'' where
  allocated p := by
    rw [second.allocated, first.allocated, List.mem_append, not_or, and_assoc]
  live e := by
    rw [second.live, first.live, first.edgeSrc, first.edgeDest, List.mem_append, List.mem_append, not_or, not_or]
    tauto
  edgeSrc := second.edgeSrc.trans first.edgeSrc
  edgeDest := second.edgeDest.trans first.edgeDest
  edgeExpr := second.edgeExpr.trans first.edgeExpr
  index := second.index.trans first.index
  terms := second.terms.trans first.terms
  nfa := by
    rw [second.nfa, first.nfa]
    have same : (n.states.filter (· ∉ dead)).filter (· ∉ dead') = n.states.filter (· ∉ dead ++ dead') := by
      rw [List.filter_filter]
      refine List.filter_congr fun p _ => ?_
      simp [Bool.and_comm]
    rw [same]
  sound := second.sound

theorem RemovesStates.arc (removes : RemovesStates t n dead n' t') :
    t'.Arc p x q ↔ t.Arc p x q ∧ p ∉ dead ∧ q ∉ dead := by
  unfold Arc
  rw [removes.edgeSrc, removes.edgeDest, removes.edgeExpr]
  constructor
  · rintro ⟨e, live, rfl, rfl, rfl⟩
    obtain ⟨live, leaves, enters⟩ := (removes.live e).mp live
    exact ⟨⟨e, live, rfl, rfl, rfl⟩, leaves, enters⟩
  · rintro ⟨⟨e, live, rfl, rfl, rfl⟩, leaves, enters⟩
    exact ⟨e, (removes.live e).mpr ⟨live, leaves, enters⟩, rfl, rfl, rfl⟩

theorem Sound.removeUnmarked (sound : t.Sound) (nodup : n.states.Nodup) (different : ss.Nodup)
    (used : ∀ s ∈ ss, t.Allocated s) : ∃ n' t', ss.foldlM (removeUnmarked keep marked) (n, t) = .ok (n', t') ∧
      RemovesStates t n (ss.filter fun s => s ∉ marked ∧ s ≠ keep) n' t' := by
  induction ss generalizing t n with
  | nil => exact ⟨n, t, rfl, .nil sound⟩
  | cons s ss ih =>
    obtain ⟨outside, different⟩ := List.nodup_cons.mp different
    have here := used s List.mem_cons_self
    have there : ∀ p ∈ ss, t.Allocated p := fun p member => used p (List.mem_cons_of_mem _ member)
    rw [List.foldlM_cons]
    by_cases stays : s ∈ marked ∨ s = keep
    · have skip : Tables.removeUnmarked keep marked (n, t) s = .ok (n, t) := by
        unfold Tables.removeUnmarked
        by_cases flag : s ∈ marked
        · exact if_pos flag
        · rw [if_neg flag, if_pos (stays.resolve_left flag)]
      obtain ⟨n', t', run, removes⟩ := ih sound nodup different there
      refine ⟨n', t', ?_, ?_⟩
      · rw [skip]
        exact run
      · rwa [List.filter_cons_of_neg (by simpa [or_iff_not_imp_left] using stays)]
    obtain ⟨flag, other⟩ := not_or.mp stays
    obtain ⟨n₁, t₁, run₁, first⟩ := sound.removeState n here
    have step : Tables.removeUnmarked keep marked (n, t) s = .ok (n₁, t₁) := by
      unfold Tables.removeUnmarked
      rw [if_neg flag, if_neg other]
      exact run₁
    have nodup₁ : n₁.states.Nodup := by
      rw [first.nfa]
      exact nodup.erase s
    have there₁ : ∀ p ∈ ss, t₁.Allocated p := fun p member =>
      (first.allocated p).mpr ⟨there p member, fun same => outside (same ▸ member)⟩
    obtain ⟨n', t', run, removes⟩ := ih first.sound nodup₁ different there₁
    refine ⟨n', t', ?_, ?_⟩
    · rw [step]
      exact run
    · rw [List.filter_cons_of_pos (by simp [flag, other])]
      exact (first.states nodup).trans removes

/-- An arc in the direction of a side. -/
def Neighbour (t : Tables) : Side → NfaState → NfaState → Prop
  | .src, p, q => ∃ x, t.Arc p x q
  | .dest, p, q => ∃ x, t.Arc q x p

theorem mem_neighbours (sound : t.Sound) : q ∈ t.neighbours side p ↔ t.Neighbour side p q := by
  unfold neighbours
  rw [List.mem_map]
  cases side with
  | src =>
    constructor
    · rintro ⟨e, member, rfl⟩
      obtain ⟨live, leaves⟩ := sound.src.mp member
      exact ⟨_, e, live, leaves, rfl, rfl⟩
    · rintro ⟨x, e, live, leaves, -, enters⟩
      exact ⟨e, sound.src.mpr ⟨live, leaves⟩, enters⟩
  | dest =>
    constructor
    · rintro ⟨e, member, rfl⟩
      obtain ⟨live, enters⟩ := sound.dest.mp member
      exact ⟨_, e, live, rfl, rfl, enters⟩
    · rintro ⟨x, e, live, leaves, -, enters⟩
      exact ⟨e, sound.dest.mpr ⟨live, enters⟩, leaves⟩

/-- A state that can be reached along the edges of a side. -/
def Reaches (t : Tables) (side : Side) (root s : NfaState) : Prop :=
  Relation.ReflTransGen (t.Neighbour side) root s

theorem Operand.removeUnreached (operand : Operand t n) (inside : root ∈ n.states) :
    ∃ n' t' dead, t.removeUnreached n side root keep = .ok (n', t') ∧ RemovesStates t n dead n' t' ∧
      ∀ s, s ∈ dead ↔ s ∈ n.states ∧ ¬t.Reaches side root s ∧ s ≠ keep := by
  have sound := operand.sound
  have owned := operand.owned
  have closed : ∀ {p q}, t.Neighbour side p q → p ∈ n.states → q ∈ n.states := by
    intro p q next here
    cases side with
    | src =>
      obtain ⟨x, arc⟩ := next
      exact (owned.closed arc).mp here
    | dest =>
      obtain ⟨x, arc⟩ := next
      exact (owned.closed arc).mpr here
  have reached_iff : ∀ s, Reached (t.neighbours side) root s ↔ t.Reaches side root s := by
    intro s
    have same : (fun a b => b ∈ t.neighbours side a) = t.Neighbour side := by
      funext a b
      exact propext (mem_neighbours sound)
    unfold Reached Reaches
    rw [same]
  have region : ∀ s, Reached (t.neighbours side) root s → s ∈ n.states := by
    intro s reached
    have reached := (reached_iff s).mp reached
    induction reached with
    | refl => exact inside
    | tail _ next ih => exact closed next (ih ((reached_iff _).mpr (by assumption)))
  obtain ⟨marked, found, marks⟩ := search_start region
  obtain ⟨n', t', run, removes⟩ :=
    @Sound.removeUnmarked t n keep n.states marked sound owned.nodup owned.nodup owned.used
  refine ⟨n', t', _, ?_, removes, fun s => ?_⟩
  · unfold Tables.removeUnreached
    rw [found]
    exact run
  · rw [List.mem_filter, decide_eq_true_iff, marks, reached_iff]

theorem RemovesStates.operand (removes : RemovesStates t n dead n' t') (operand : Operand t n)
    (start : n.start ∉ dead) (final : n.final ∉ dead) : t'.Operand n' := by
  have owned := operand.owned
  have mem : ∀ {s}, s ∈ n'.states ↔ s ∈ n.states ∧ s ∉ dead := by
    intro s
    rw [removes.nfa, List.mem_filter, decide_eq_true_iff]
  refine ⟨removes.sound, fun p q arc => operand.loud p q (removes.arc.mp arc).1, ?_⟩
  refine { nodup := ?_, used := ?_, closed := ?_, start := ?_, final := ?_ }
  · rw [removes.nfa]
    exact owned.nodup.filter _
  · intro s inside
    obtain ⟨inside, alive⟩ := mem.mp inside
    exact (removes.allocated s).mpr ⟨owned.used s inside, alive⟩
  · intro p x q arc
    obtain ⟨arc, aliveP, aliveQ⟩ := removes.arc.mp arc
    rw [mem, mem]
    constructor
    · rintro ⟨inside, -⟩
      exact ⟨(owned.closed arc).mp inside, aliveQ⟩
    · rintro ⟨inside, -⟩
      exact ⟨(owned.closed arc).mpr inside, aliveP⟩
  · rw [mem, removes.nfa]
    exact ⟨owned.start, start⟩
  · rw [mem, removes.nfa]
    exact ⟨owned.final, final⟩

/-- A path from the root meets states that the root reaches only. -/
theorem RemovesStates.path_of_reached {bs : List BoolNode} (removes : RemovesStates t n dead n' t')
    (alive : ∀ s ∈ dead, ¬t.Reaches .src root s) (path : Path t.Arc p bs q) (here : t.Reaches .src root p) :
    Path t'.Arc p bs q := by
  have kept : ∀ {p x q}, t.Reaches .src root p → t.Arc p x q → t'.Arc p x q ∧ t.Reaches .src root q := by
    intro p x q here arc
    have there : t.Reaches .src root q := here.tail ⟨x, arc⟩
    exact ⟨removes.arc.mpr ⟨arc, fun gone => alive p gone here, fun gone => alive q gone there⟩, there⟩
  induction path with
  | nil p => exact .nil p
  | silent first _ ih => exact .silent (kept here first).1 (ih (kept here first).2)
  | letter first _ ih => exact .letter (kept here first).1 (ih (kept here first).2)

/-- A path to the root meets states that reach the root only. -/
theorem RemovesStates.path_of_reaching {bs : List BoolNode} (removes : RemovesStates t n dead n' t')
    (alive : ∀ s ∈ dead, ¬t.Reaches .dest root s) (path : Path t.Arc p bs q) (target : q = root) :
    Path t'.Arc p bs q ∧ t.Reaches .dest root p := by
  have kept : ∀ {p x r}, t.Reaches .dest root r → t.Arc p x r → t'.Arc p x r ∧ t.Reaches .dest root p := by
    intro p x r there arc
    have here : t.Reaches .dest root p := there.tail ⟨x, arc⟩
    exact ⟨removes.arc.mpr ⟨arc, fun gone => alive p gone here, fun gone => alive r gone there⟩, here⟩
  induction path with
  | nil p => exact ⟨.nil p, target ▸ .refl⟩
  | silent first _ ih =>
    obtain ⟨rest, there⟩ := ih target
    exact ⟨.silent (kept there first).1 rest, (kept there first).2⟩
  | letter first _ ih =>
    obtain ⟨rest, there⟩ := ih target
    exact ⟨.letter (kept there first).1 rest, (kept there first).2⟩

/-- `Remove_Unreachable_States` never fails: the states that are not reached from the start state are removed, and then
those that do not reach the final state. -/
theorem Operand.removeUnreachableStates_steps (operand : Operand t n) :
    ∃ n₁ t₁ dead₁ n₂ t₂ dead₂, t.removeUnreachableStates n = .ok (n₂, t₂) ∧ RemovesStates t n dead₁ n₁ t₁ ∧
      (∀ s, s ∈ dead₁ ↔ s ∈ n.states ∧ ¬t.Reaches .src n.start s ∧ s ≠ n.final) ∧ RemovesStates t₁ n₁ dead₂ n₂ t₂ ∧
      (∀ s, s ∈ dead₂ ↔ s ∈ n₁.states ∧ ¬t₁.Reaches .dest n.final s ∧ s ≠ n.start) ∧ t₂.Operand n₂ := by
  obtain ⟨n₁, t₁, dead₁, run₁, first, gone₁⟩ :=
    @Operand.removeUnreached t n n.start n.final .src operand operand.owned.start
  have start₁ : n.start ∉ dead₁ := fun gone => ((gone₁ _).mp gone).2.1 .refl
  have final₁ : n.final ∉ dead₁ := fun gone => ((gone₁ _).mp gone).2.2 rfl
  have operand₁ := first.operand operand start₁ final₁
  have sameStart : n₁.start = n.start := by rw [first.nfa]
  have sameFinal : n₁.final = n.final := by rw [first.nfa]
  obtain ⟨n₂, t₂, dead₂, run₂, second, gone₂⟩ :=
    @Operand.removeUnreached t₁ n₁ n₁.final n₁.start .dest operand₁ operand₁.owned.final
  have start₂ : n₁.start ∉ dead₂ := fun gone => ((gone₂ _).mp gone).2.2 rfl
  have final₂ : n₁.final ∉ dead₂ := fun gone => ((gone₂ _).mp gone).2.1 .refl
  rw [sameStart, sameFinal] at gone₂
  refine ⟨n₁, t₁, dead₁, n₂, t₂, dead₂, ?_, first, gone₁, second, gone₂, second.operand operand₁ start₂ final₂⟩
  unfold Tables.removeUnreachableStates
  rw [run₁]
  exact run₂

/-- `Remove_Unreachable_States` keeps the start state and the final state, and keeps the words between them. -/
theorem Operand.removeUnreachableStates (operand : Operand t n) :
    ∃ n' t' dead, t.removeUnreachableStates n = .ok (n', t') ∧ RemovesStates t n dead n' t' ∧
      (∀ s ∈ dead, s ∈ n.states ∧ s ≠ n.start ∧ s ≠ n.final) ∧ t'.Operand n' ∧
        ∀ w, Path t'.Step n.start w n.final ↔ Path t.Step n.start w n.final := by
  obtain ⟨n₁, t₁, dead₁, n₂, t₂, dead₂, run, first, gone₁, second, gone₂, operand₂⟩ := operand.removeUnreachableStates_steps
  refine ⟨n₂, t₂, dead₁ ++ dead₂, run, first.trans second, fun s gone => ?_, operand₂, fun w => ?_⟩
  · rcases List.mem_append.mp gone with gone | gone
    · obtain ⟨inside, unreached, other⟩ := (gone₁ s).mp gone
      exact ⟨inside, fun same => unreached (same ▸ .refl), other⟩
    · obtain ⟨inside, unreached, other⟩ := (gone₂ s).mp gone
      rw [first.nfa, List.mem_filter] at inside
      exact ⟨inside.1, other, fun same => unreached (same ▸ .refl)⟩
  · refine path_step_congr fun bs _ => ⟨fun path => ?_, fun path => ?_⟩
    · exact path.mono fun p x q arc => (first.arc.mp (second.arc.mp arc).1).1
    · have path₁ := first.path_of_reached (fun s gone => ((gone₁ s).mp gone).2.1) path .refl
      exact (second.path_of_reaching (fun s gone => ((gone₂ s).mp gone).2.1) path₁ rfl).1

theorem RemovesStates.reaches (removes : RemovesStates t n dead n' t') (alive : ∀ p, t.Reaches side root p → p ∉ dead)
    (reached : t.Reaches side root s) : t'.Reaches side root s := by
  induction reached with
  | refl => exact .refl
  | @tail p q before next ih =>
    refine ih.tail ?_
    have here := alive p before
    have there := alive q (before.tail next)
    cases side with
    | src => exact next.imp fun x arc => removes.arc.mpr ⟨arc, here, there⟩
    | dest => exact next.imp fun x arc => removes.arc.mpr ⟨arc, there, here⟩

theorem RemovesStates.reaches_through (removes : RemovesStates t n dead n' t') (alive : ∀ p, t.Reaches .dest root p → p ∉ dead)
    (through : t.Reaches .dest root s) (reached : t.Reaches .src p s) : t'.Reaches .src p s ∧ t.Reaches .dest root p := by
  induction reached using Relation.ReflTransGen.head_induction_on with
  | refl => exact ⟨.refl, through⟩
  | @head a c next rest ih =>
    obtain ⟨path, there⟩ := ih
    have here : t.Reaches .dest root a := there.tail next
    exact ⟨path.head (next.imp fun x arc => removes.arc.mpr ⟨arc, alive a here, alive c there⟩), here⟩

/-- Between the start state and the final state, the states that are left are reached from the first one and reach the
last one. -/
theorem Operand.removeUnreachableStates_reaches (operand : Operand t n) (run : t.removeUnreachableStates n = .ok (n', t'))
    (inside : s ∈ n'.states) (notStart : s ≠ n.start) (notFinal : s ≠ n.final) :
    t'.Reaches .src n.start s ∧ t'.Reaches .dest n.final s := by
  obtain ⟨n₁, t₁, dead₁, n₂, t₂, dead₂, run', first, gone₁, second, gone₂, -⟩ := operand.removeUnreachableStates_steps
  obtain ⟨rfl, rfl⟩ := Prod.mk.inj (Except.ok.inj (run.symm.trans run'))
  rw [second.nfa, List.mem_filter, decide_eq_true_iff] at inside
  obtain ⟨inside₁, alive₂⟩ := inside
  have through : t₁.Reaches .dest n.final s := by
    by_contra unreached
    exact alive₂ ((gone₂ s).mpr ⟨inside₁, unreached, notStart⟩)
  rw [first.nfa, List.mem_filter, decide_eq_true_iff] at inside₁
  have reached : t.Reaches .src n.start s := by
    by_contra unreached
    exact inside₁.2 ((gone₁ s).mpr ⟨inside₁.1, unreached, notFinal⟩)
  have reached₁ := first.reaches (fun p here gone => ((gone₁ p).mp gone).2.1 here) reached
  have alive : ∀ p, t₁.Reaches .dest n.final p → p ∉ dead₂ := fun p here gone => ((gone₂ p).mp gone).2.1 here
  exact ⟨(second.reaches_through alive through reached₁).1, second.reaches alive through⟩

end Tables

end Ghdl.Psl
