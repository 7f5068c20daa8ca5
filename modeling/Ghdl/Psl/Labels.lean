import Ghdl.Psl.Determinize
import Ghdl.Psl.Language

/-!
# Labels of states

`Labelize_States` numbers the states of an automaton: the start state first, the final state last. When they
are one state, it has the last number, and no state has the first one.
-/

namespace Ghdl.Psl

open Function

namespace Tables

variable {t : Tables} {n : Nfa} {s s' : NfaState} {ss : List NfaState} {k d : Nat}

/-- The states between the start state and the final state. -/
def inner (n : Nfa) (ss : List NfaState) : List NfaState := ss.filter fun s => s ≠ n.start ∧ s ≠ n.final

theorem inner_cons (n : Nfa) (s : NfaState) (ss : List NfaState) :
    inner n (s :: ss) = if s ≠ n.start ∧ s ≠ n.final then s :: inner n ss else inner n ss := by
  unfold inner
  by_cases here : s ≠ n.start ∧ s ≠ n.final
  · rw [if_pos here, List.filter_cons_of_pos (by simpa using here)]
  · rw [if_neg here, List.filter_cons_of_neg (by simpa using here)]

/-- The loop of `Labelize_States`. -/
theorem labelizeState_foldl (n : Nfa) (nodup : ss.Nodup) (t : Tables) (k : Nat) : ss.foldl (labelizeState n) (t, k) =
      ({ t with stateLabel := fun s => if s ∈ inner n ss then k + (inner n ss).idxOf s else t.stateLabel s },
        k + (inner n ss).length) := by
  induction ss generalizing t k with
  | nil => rfl
  | cons s ss ih =>
    obtain ⟨outside, nodup⟩ := List.nodup_cons.mp nodup
    rw [List.foldl_cons, inner_cons]
    have other : s ∉ inner n ss := fun member => outside (List.mem_of_mem_filter member)
    by_cases here : s ≠ n.start ∧ s ≠ n.final
    · rw [if_pos here, labelizeState, if_pos here, ih nodup]
      have labels : (fun p => if p ∈ inner n ss then k + 1 + (inner n ss).idxOf p
            else update t.stateLabel s k p) =
          fun p => if p ∈ s :: inner n ss then k + (s :: inner n ss).idxOf p else t.stateLabel p := by
        funext p
        by_cases same : p = s
        · subst same
          simp [other]
        by_cases member : p ∈ inner n ss
        · rw [if_pos member, if_pos (List.mem_cons_of_mem _ member), List.idxOf_cons_ne _ (Ne.symm same)]
          omega
        · rw [if_neg member, if_neg (by simp [same, member]), update_of_ne same]
      have length : k + 1 + (inner n ss).length = k + (s :: inner n ss).length := by
        rw [List.length_cons]
        omega
      rw [← labels, ← length]
    · rw [if_neg here, labelizeState, if_neg here, ih nodup]

/-- The states in the order of their labels. -/
def labelled (n : Nfa) : List NfaState := n.start :: inner n n.states ++ [n.final]

theorem length_labelled (n : Nfa) : (labelled n).length = (inner n n.states).length + 2 := by
  unfold labelled
  simp

/-- What `Labelize_States` does: it sets labels only. -/
theorem labelizeStates_eq (nodup : n.states.Nodup) (t : Tables) :
    ∃ labels, t.labelizeStates n = ({ t with stateLabel := labels }, (labelled n).length) ∧
      labels n.final + 1 = (labelled n).length ∧ (n.start ≠ n.final → labels n.start = 0) ∧
        ∀ s ∈ inner n n.states, labels s = (inner n n.states).idxOf s + 1 := by
  let counted : NfaState → Nat := fun s =>
    if s ∈ inner n n.states then 1 + (inner n n.states).idxOf s
    else update t.stateLabel n.start 0 s
  refine ⟨update counted n.final (1 + (inner n n.states).length), ?_, ?_, fun apart => ?_, fun s member => ?_⟩
  · have length : 1 + (inner n n.states).length + 1 = (inner n n.states).length + 2 := by omega
    unfold labelizeStates
    dsimp only
    rw [labelizeState_foldl n nodup]
    dsimp only
    rw [length_labelled, length]
  · rw [update_self, length_labelled]
    omega
  · rw [update_of_ne apart]
    have outside : n.start ∉ inner n n.states := by
      intro member
      have other := List.of_mem_filter member
      simp at other
    show (if n.start ∈ inner n n.states then _ else _) = 0
    rw [if_neg outside, update_self]
  · have other := List.of_mem_filter member
    have apart : s ≠ n.final := by
      simp only [decide_eq_true_eq] at other
      exact other.2
    rw [update_of_ne apart]
    show (if s ∈ inner n n.states then _ else _) = _
    rw [if_pos member]
    omega

/-- Every state of the automaton has its own label, and every number is a label. -/
structure Labelled (t : Tables) (n : Nfa) (nbrStates : Nat) : Prop where
  start : t.stateLabel n.start = 0
  final : t.stateLabel n.final + 1 = nbrStates
  bound : ∀ s ∈ n.states, t.stateLabel s < nbrStates
  injective : ∀ s ∈ n.states, ∀ s' ∈ n.states, t.stateLabel s = t.stateLabel s' → s = s'
  onto : ∀ d < nbrStates, ∃ s ∈ n.states, t.stateLabel s = d

theorem Owned.labelled (owned : t.Owned n) (apart : n.start ≠ n.final) {labels : NfaState → Nat}
    (final : labels n.final + 1 = (labelled n).length) (start : labels n.start = 0)
    (others : ∀ s ∈ inner n n.states, labels s = (inner n n.states).idxOf s + 1) :
    Labelled { t with stateLabel := labels } n (Tables.labelled n).length := by
  have cases : ∀ s ∈ n.states, s = n.start ∨ s ∈ inner n n.states ∨ s = n.final := by
    intro s inside
    by_cases first : s = n.start
    · exact .inl first
    · by_cases last : s = n.final
      · exact .inr (.inr last)
      · refine .inr (.inl (List.mem_filter.mpr ⟨inside, ?_⟩))
        simp [first, last]
  have length := length_labelled n
  have small : ∀ s ∈ inner n n.states, (inner n n.states).idxOf s < (inner n n.states).length :=
    fun s member => List.idxOf_lt_length_iff.mpr member
  refine
    { start, final, bound := fun s inside => ?_, injective := fun s inside s' inside' same => ?_
      onto := fun d bound => ?_ }
  · show labels s < _
    rcases cases s inside with rfl | member | rfl
    · rw [start]
      omega
    · have below := small s member
      rw [others s member]
      omega
    · omega
  · have same : labels s = labels s' := same
    rcases cases s inside with rfl | member | rfl
    · rcases cases s' inside' with rfl | member' | rfl
      · rfl
      · rw [start, others s' member'] at same
        omega
      · omega
    · have below := small s member
      rw [others s member] at same
      rcases cases s' inside' with rfl | member' | rfl
      · omega
      · rw [others s' member'] at same
        exact (List.idxOf_inj member).mp (by omega)
      · omega
    · rcases cases s' inside' with rfl | member' | rfl
      · omega
      · have below := small s' member'
        rw [others s' member'] at same
        omega
      · rfl
  · by_cases first : d = 0
    · exact ⟨n.start, owned.start, start.trans first.symm⟩
    by_cases last : d + 1 = (Tables.labelled n).length
    · exact ⟨n.final, owned.final, by show labels n.final = d; omega⟩
    have below : d - 1 < (inner n n.states).length := by omega
    have member := List.getElem_mem below
    have nodup : (inner n n.states).Nodup := owned.nodup.filter _
    refine ⟨(inner n n.states)[d - 1], List.mem_of_mem_filter member, ?_⟩
    show labels _ = d
    rw [others _ member, nodup.idxOf_getElem]
    omega

end Tables

end Ghdl.Psl
