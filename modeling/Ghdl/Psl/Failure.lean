import Ghdl.Automata.Subsets
import Ghdl.Psl.Vectors

/-!
# Failure of a sequence

The automaton that `Determinize` returns follows the sets of active states, and its final state stands for the
empty set. A set of states that no edge leaves is not followed, so that its failure is lost.
-/

namespace Ghdl.Psl

open Automata Fallible

namespace Tables

variable {t t₀ t' : Tables} {n n' : Nfa} {nbr d : Nat} {v v' : BoolVector} {letter : Valuation}
  {s p q : NfaState} {w : List Valuation} {here there : Set NfaState}

/-- The states of a vector. -/
def statesOf (t : Tables) (n : Nfa) (v : BoolVector) : Set NfaState := {s | t.InVector n v s}

/-- The sets of active states that are followed. -/
def Follows (t : Tables) (n : Nfa) : Set NfaState → Option Valuation → Set NfaState → Prop :=
  SubsetStep t.Step t.Busy n.final

section

variable (operand : t.Operand n) (labelled : t.Labelled n nbr)

include operand labelled

theorem leads_iff (inside : q ∈ n.states) :
    t.Leads n v letter (t.stateLabel q) ↔ q ∈ next t.Step (t.statesOf n v) letter := by
  unfold Leads
  constructor
  · rintro ⟨s, member, r, move, same⟩
    have there := operand.owned.step_mem member.1 move
    rw [← labelled.injective r there q inside same]
    exact ⟨s, member, move⟩
  · rintro ⟨s, member, move⟩
    exact ⟨s, member, q, move, rfl⟩

theorem next_inside : ∀ q ∈ next t.Step (t.statesOf n v) letter, q ∈ n.states := by
  rintro q ⟨s, member, move⟩
  exact operand.owned.step_mem member.1 move

theorem statesOf_next (other : ¬t.Leads n v letter (t.stateLabel n.final))
    (bits : ∀ d, v'.getD d false = true ↔ d ≠ t.stateLabel n.final ∧ t.Leads n v letter d) :
    t.statesOf n v' = next t.Step (t.statesOf n v) letter := by
  ext q
  constructor
  · rintro ⟨inside, bit⟩
    exact (leads_iff operand labelled inside).mp ((bits _).mp bit).2
  · intro member
    have inside := next_inside operand labelled q member
    have leads := (leads_iff operand labelled inside).mpr member
    refine ⟨inside, (bits _).mpr ⟨fun same => other (same ▸ leads), leads⟩⟩

theorem VectorMove.follows (move : t.VectorMove n nbr v letter v') :
    t.Follows n (t.statesOf n v) (some letter) (t.statesOf n v') := by
  obtain ⟨busy, other, -, bits⟩ := move
  refine ⟨letter, rfl, busy, ?_, statesOf_next operand labelled other bits⟩
  rwa [← leads_iff operand labelled operand.owned.final]

theorem Follows.vector (follows : t.Follows n (t.statesOf n v) (some letter) there) :
    ∃ v', t.VectorMove n nbr v letter v' ∧ t.statesOf n v' = there := by
  classical
  obtain ⟨a, same, busy, other, rfl⟩ := follows
  cases same
  rw [← leads_iff operand labelled operand.owned.final] at other
  let v' : BoolVector := (List.range nbr).map fun d =>
    decide (d ≠ t.stateLabel n.final ∧ t.Leads n v letter d)
  have bits : ∀ d, v'.getD d false = true ↔ d ≠ t.stateLabel n.final ∧ t.Leads n v letter d := by
    intro d
    by_cases small : d < nbr
    · have length : d < v'.length := by simpa [v'] using small
      rw [List.getD_eq_getElem _ _ length]
      simp [v']
    have length : v'.length ≤ d := by simpa [v'] using small
    rw [List.getD_eq_default _ _ length]
    refine iff_of_false Bool.false_ne_true ?_
    rintro ⟨-, s, member, q, move, rfl⟩
    exact small (labelled.bound q (operand.owned.step_mem member.1 move))
  refine ⟨v', ⟨busy, other, by simp [v'], bits⟩, statesOf_next operand labelled other bits⟩

theorem path_vectors_iff : (∃ v', t.statesOf n v' = there ∧ Path (Discovery.MoveStep (t.VectorMove n nbr)) v w v') ↔
      Path (t.Follows n) (t.statesOf n v) w there := by
  constructor
  · rintro ⟨v', rfl, path⟩
    refine path.lift (t.statesOf n) fun v o v' move => ?_
    obtain ⟨letter, rfl, move⟩ := move
    exact .single (move.follows operand labelled)
  · intro path
    generalize before : t.statesOf n v = first at path
    induction path generalizing v with
    | nil here => exact ⟨v, before, .nil v⟩
    | silent move _ _ => exact absurd move (SubsetStep.loud _ _)
    | letter move _ ih =>
      rw [← before] at move
      obtain ⟨v₁, moved, same⟩ := Follows.vector operand labelled move
      obtain ⟨v', last, path⟩ := ih same
      exact ⟨v', last, .letter (Discovery.MoveStep.iff.mpr moved) path⟩

theorem statesOf_first : t.statesOf n (firstVector nbr) = {n.start} := by
  ext s
  constructor
  · rintro ⟨inside, bit⟩
    have zero : t.stateLabel s = 0 := by
      by_contra positive
      obtain ⟨d, label⟩ := Nat.exists_eq_succ_of_ne_zero positive
      rw [label] at bit
      have bit : (List.replicate (nbr - 1) false).getD d false = true := bit
      rw [getD_replicate_false] at bit
      cases bit
    exact labelled.injective s inside n.start operand.owned.start (zero.trans labelled.start.symm)
  · rintro rfl
    refine ⟨operand.owned.start, ?_⟩
    rw [labelled.start]
    rfl

theorem statesOf_empty_iff (length : v.length = nbr) : t.statesOf n v = ∅ ↔ v = List.replicate nbr false := by
  constructor
  · intro empty
    refine vector_ext (length.trans List.length_replicate.symm) fun d => ?_
    rw [getD_replicate_false]
    refine iff_of_false (fun bit => ?_) Bool.false_ne_true
    by_cases small : d < nbr
    · obtain ⟨s, inside, label⟩ := labelled.onto d small
      have member : s ∈ t.statesOf n v := ⟨inside, label ▸ bit⟩
      rw [empty] at member
      exact member
    · rw [List.getD_eq_default _ _ (by omega)] at bit
      cases bit
  · rintro rfl
    ext s
    refine ⟨fun member => ?_, False.elim⟩
    have bit := member.2
    rw [getD_replicate_false] at bit
    cases bit

theorem path_failure_iff :
    Path (Discovery.MoveStep (t.VectorMove n nbr)) (firstVector nbr) w (List.replicate nbr false) ↔
      Path (t.Follows n) {n.start} w ∅ := by
  rw [← statesOf_first operand labelled, ← path_vectors_iff operand labelled]
  constructor
  · intro path
    exact ⟨_, (statesOf_empty_iff operand labelled List.length_replicate).mpr rfl, path⟩
  rintro ⟨v', empty, path⟩
  have positive : 0 < nbr := by
    have final := labelled.final
    omega
  have length : v'.length = nbr := by
    have first : (firstVector nbr).length = nbr := by
      unfold firstVector
      rw [List.length_cons, List.length_replicate]
      omega
    refine @Path.stays _ _ _ _ _ _ (fun v => v.length = nbr) path first fun v o v' _ move => ?_
    obtain ⟨letter, -, moved⟩ := move
    exact moved.2.2.1
  rw [← (statesOf_empty_iff operand labelled length).mp empty]
  exact path

end

theorem Operand.withLabels (operand : t.Operand n) (labels : NfaState → Nat) :
    Operand { t with stateLabel := labels } n where
  sound :=
    { src := operand.sound.src, dest := operand.sound.dest, srcNodup := operand.sound.srcNodup
      destNodup := operand.sound.destNodup, srcAllocated := operand.sound.srcAllocated
      destAllocated := operand.sound.destAllocated, freeEdges := operand.sound.freeEdges
      freeStates := operand.sound.freeStates, index := operand.sound.index }
  loud := operand.loud
  owned :=
    { nodup := operand.owned.nodup, used := operand.owned.used, closed := operand.owned.closed
      start := operand.owned.start, final := operand.owned.final }

theorem merged_never_fails (positive : ∀ s ∈ n.states, 0 < t.stateLabel s) (some : 0 < nbr) :
    ¬Path (Discovery.MoveStep (t.VectorMove n nbr)) (firstVector nbr) w (List.replicate nbr false) := by
  have idle : ∀ o v, ¬Discovery.MoveStep (t.VectorMove n nbr) (firstVector nbr) o v := by
    rintro o v ⟨letter, -, ⟨s, ⟨inside, bit⟩, -⟩, -⟩
    obtain ⟨d, label⟩ := Nat.exists_eq_succ_of_ne_zero (Nat.pos_iff_ne_zero.mp (positive s inside))
    rw [label] at bit
    have bit : (List.replicate (nbr - 1) false).getD d false = true := bit
    rw [getD_replicate_false] at bit
    cases bit
  intro path
  obtain ⟨-, same⟩ := path.of_dead idle
  have bit := getD_replicate_false nbr 0
  rw [← same] at bit
  cases bit

/-- `Determinize` returns an automaton, unless a limit of `psl-qm` is reached. The automaton reaches its final
state where the set of active states gets empty. -/
theorem Operand.determinize (operand : t.Operand n) (tidy : t.Tidy n) (terms : TermsOk t.terms) :
    Yields QmLimit (fun result => Builds t [] result.1 result.2 ∧
      ∀ w, Path result.2.Step result.1.start w result.1.final ↔
        n.start ≠ n.final ∧ Path (t.Follows n) {n.start} w ∅) (t.determinize n) := by
  have used : ∀ s ∈ n.states, s ≠ 0 := fun s inside =>
    Nat.pos_iff_ne_zero.mp (operand.owned.used s inside).1
  obtain ⟨labels, run, final, start, others⟩ := labelizeStates_eq operand.owned.nodup t
  have operand₁ := operand.withLabels labels
  have length := length_labelled n
  have bound : ∀ s ∈ n.states, labels s < (Tables.labelled n).length := by
    intro s inside
    by_cases last : s = n.final
    · rw [last]
      omega
    by_cases first : s = n.start
    · rw [first, start fun same => last (first.trans same)]
      omega
    have member : s ∈ inner n n.states := List.mem_filter.mpr ⟨inside, by simp [first, last]⟩
    have small : (inner n n.states).idxOf s < (inner n n.states).length := List.idxOf_lt_length_iff.mpr member
    rw [others s member]
    omega
  unfold Tables.determinize
  rw [if_neg (by simp [used _ operand.owned.start, used _ operand.owned.final]), run]
  refine (determinize1_builds operand₁ tidy terms bound (by omega)).mono ?_
  rintro ⟨n', t'⟩ ⟨builds, paths⟩
  refine ⟨⟨builds.operand, fun s used apart => ?_⟩, fun w => (paths w).trans ?_⟩
  · obtain ⟨kept, outside⟩ := builds.kept s used apart
    exact ⟨⟨kept.allocated, kept.leaves, kept.enters⟩, outside⟩
  by_cases apart : n.start = n.final
  · refine iff_of_false (merged_never_fails (fun s inside => ?_) (by omega)) fun both => both.1 apart
    show 0 < labels s
    by_cases last : s = n.final
    · rw [last]
      omega
    · have other : s ≠ n.start := fun same => last (same.trans apart)
      have member : s ∈ inner n n.states := List.mem_filter.mpr ⟨inside, by simp [other, last]⟩
      rw [others s member]
      omega
  · rw [path_failure_iff operand₁ (operand.owned.labelled apart final (start apart) others)]
    exact (and_iff_right apart).symm

/-- After this word N has accepted no part of it, and no state is active; after each shorter part one was. -/
def FailsFirst (t : Tables) (n : Nfa) (w : List Valuation) : Prop :=
  (∀ u, u <+: w → ¬t.Accepts n u) ∧ (¬∃ s, Path t.Step n.start w s) ∧
    ∀ u, u <+: w → u ≠ w → ∃ s, Path t.Step n.start u s

/-- The final state is reached by no part of the word. -/
def Unmatched (t : Tables) (n : Nfa) (w : List Valuation) : Prop :=
  ∀ u, u <+: w → ¬Path t.Step n.start u n.final

theorem unmatched_iff (loud : t.Loud) (apart : n.start ≠ n.final) :
    t.Unmatched n w ↔ ¬Passed t.Step n.start n.final w := by
  constructor
  · rintro pending ⟨u, prefixed, -, path⟩
    exact pending u prefixed path
  · intro unreached u prefixed path
    by_cases empty : u = []
    · rw [empty, loud.path_nil] at path
      exact apart path
    · exact unreached ⟨u, prefixed, empty, path⟩

theorem step_busy {letter : Valuation} (move : t.Step p (some letter) q) : t.Busy p := by
  obtain ⟨b, arc, -⟩ := move
  exact ⟨_, _, arc⟩

theorem failsFirst_iff (loud : t.Loud) (apart : n.start ≠ n.final) (flag : n.epsilon = false) :
    t.FailsFirst n w ↔ Fails t.Step n.start n.final w := by
  have accepts : ∀ u, t.Accepts n u ↔ Path t.Step n.start u n.final := by
    intro u
    unfold Accepts
    rw [flag]
    exact or_iff_left fun empty => Bool.false_ne_true empty.2
  have unmatched : (∀ u, u <+: w → ¬t.Accepts n u) ↔ ¬Passed t.Step n.start n.final w := by
    rw [← unmatched_iff loud apart]
    exact forall_congr' fun u => imp_congr_right fun _ => not_congr (accepts u)
  unfold FailsFirst Fails
  rw [unmatched]
  refine and_congr_right fun _ => and_congr_left fun _ => ?_
  rw [← Set.not_nonempty_iff_eq_empty]
  exact Iff.rfl

theorem not_failsFirst (empty : t.Accepts n []) : ¬t.FailsFirst n w := fun fails =>
  fails.1 [] List.nil_prefix empty

end Tables

end Ghdl.Psl
