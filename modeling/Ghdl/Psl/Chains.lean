import Mathlib.Data.List.Nodup
import Ghdl.Psl.Nfas

/-!
# Chains of edges

The invariant of the automata tables and what each edit does under it. An edge is live from `Add_Edge` to
`Remove_Edge`. In sound tables each live edge is exactly once in the chain of its source and exactly once in
the chain of its destination, no other edge is in a chain, and the ends of a live edge are states that are in
use. Every edit keeps this. `Arc` forgets the edges and keeps what the chains say about the states.
-/

namespace Ghdl.Psl

open Function

namespace Tables

/-- The edge is in use. -/
def Live (t : Tables) (e : NfaEdge) : Prop := 1 ≤ e ∧ e ≤ t.lastEdge ∧ e ∉ t.freeEdges

instance (t : Tables) : DecidablePred t.Live := fun _ => inferInstanceAs (Decidable (_ ∧ _ ∧ _))

/-- The state is in use. -/
def Allocated (t : Tables) (s : NfaState) : Prop := 1 ≤ s ∧ s ≤ t.lastState ∧ s ∉ t.freeStates

instance (t : Tables) : DecidablePred t.Allocated := fun _ => inferInstanceAs (Decidable (_ ∧ _ ∧ _))

/-- The invariant of the tables. -/
structure Sound (t : Tables) : Prop where
  src : ∀ {s e}, e ∈ t.srcEdges s ↔ t.Live e ∧ t.edgeSrc e = s
  dest : ∀ {s e}, e ∈ t.destEdges s ↔ t.Live e ∧ t.edgeDest e = s
  srcNodup : ∀ s, (t.srcEdges s).Nodup
  destNodup : ∀ s, (t.destEdges s).Nodup
  srcAllocated : ∀ {e}, t.Live e → t.Allocated (t.edgeSrc e)
  destAllocated : ∀ {e}, t.Live e → t.Allocated (t.edgeDest e)
  freeEdges : t.freeEdges.Nodup ∧ ∀ e ∈ t.freeEdges, 1 ≤ e ∧ e ≤ t.lastEdge
  freeStates : t.freeStates.Nodup ∧ ∀ s ∈ t.freeStates, 1 ≤ s ∧ s ≤ t.lastState
  index : Function.Injective t.nodeIndex

/-- A live edge goes from one state to another one with the expression. -/
def Arc (t : Tables) (p : NfaState) (expr : Option BoolNode) (q : NfaState) : Prop :=
  ∃ e, t.Live e ∧ t.edgeSrc e = p ∧ t.edgeExpr e = expr ∧ t.edgeDest e = q

/-- The arcs, in the order of the edges. -/
def arcs (t : Tables) : List (NfaState × Option BoolNode × NfaState) :=
  ((List.range (t.lastEdge + 1)).filter (t.Live ·)).map fun e => (t.edgeSrc e, t.edgeExpr e, t.edgeDest e)

/-- An automaton with the arcs of the tables. -/
structure Shape where
  nfa : Nfa
  arcs : List (NfaState × Option BoolNode × NfaState)
deriving DecidableEq

/-- What is seen of an automaton that is built. -/
def shape (built : Nfa × Tables) : Shape := { nfa := built.1, arcs := built.2.arcs }

/-- What the edits of the edges leave alone. -/
structure SameStates (t t' : Tables) : Prop where
  lastState : t'.lastState = t.lastState
  freeStates : t'.freeStates = t.freeStates
  index : t'.nodeIndex = t.nodeIndex
  terms : t'.terms = t.terms

variable {t t' t'' : Tables} {n n' : Nfa} {s d p q : NfaState} {e e' : NfaEdge}
  {expr x : Option BoolNode}

theorem mem_arcs : (p, x, q) ∈ t.arcs ↔ t.Arc p x q := by
  unfold arcs
  rw [List.mem_map]
  constructor
  · rintro ⟨e, member, ends⟩
    obtain ⟨rfl, rest⟩ := Prod.mk.inj ends
    obtain ⟨rfl, rfl⟩ := Prod.mk.inj rest
    exact ⟨e, of_decide_eq_true (List.mem_filter.mp member).2, rfl, rfl, rfl⟩
  · rintro ⟨e, live, rfl, rfl, rfl⟩
    exact ⟨e, List.mem_filter.mpr ⟨List.mem_range.mpr (Nat.lt_succ_of_le live.2.1), decide_eq_true live⟩, rfl⟩

@[simp] theorem SameStates.refl (t : Tables) : SameStates t t := ⟨rfl, rfl, rfl, rfl⟩

theorem SameStates.trans (first : SameStates t t') (second : SameStates t' t'') : SameStates t t'' :=
  ⟨second.lastState.trans first.lastState, second.freeStates.trans first.freeStates,
    second.index.trans first.index, second.terms.trans first.terms⟩

theorem SameStates.allocated (same : SameStates t t') : t'.Allocated s ↔ t.Allocated s := by
  unfold Allocated
  rw [same.lastState, same.freeStates]

namespace Sound

section

variable (sound : t.Sound)
include sound

theorem live_of_src (member : e ∈ t.srcEdges s) : t.Live e := (sound.src.mp member).1

theorem live_of_dest (member : e ∈ t.destEdges s) : t.Live e :=
  (sound.dest.mp member).1

theorem dest_eq (member : e ∈ t.destEdges s) : t.edgeDest e = s :=
  (sound.dest.mp member).2

theorem mem_src (live : t.Live e) : e ∈ t.srcEdges (t.edgeSrc e) :=
  sound.src.mpr ⟨live, rfl⟩

theorem mem_dest (live : t.Live e) : e ∈ t.destEdges (t.edgeDest e) :=
  sound.dest.mpr ⟨live, rfl⟩

/-- The chain of a source is empty when no arc leaves the state. -/
theorem src_nil_iff : t.srcEdges s = [] ↔ ∀ x q, ¬t.Arc s x q := by
  constructor
  · intro empty x q arc
    obtain ⟨e, live, leaves, -, -⟩ := arc
    have member : e ∈ t.srcEdges s := sound.src.mpr ⟨live, leaves⟩
    rw [empty] at member
    exact absurd member List.not_mem_nil
  · intro none
    refine List.eq_nil_iff_forall_not_mem.mpr fun e member => ?_
    obtain ⟨live, leaves⟩ := sound.src.mp member
    exact none _ _ ⟨e, live, leaves, rfl, rfl⟩

theorem dest_nil_iff : t.destEdges s = [] ↔ ∀ p x, ¬t.Arc p x s := by
  constructor
  · intro empty p x arc
    obtain ⟨e, live, -, -, enters⟩ := arc
    have member : e ∈ t.destEdges s := sound.dest.mpr ⟨live, enters⟩
    rw [empty] at member
    exact absurd member List.not_mem_nil
  · intro none
    refine List.eq_nil_iff_forall_not_mem.mpr fun e member => ?_
    obtain ⟨live, enters⟩ := sound.dest.mp member
    exact none _ _ ⟨e, live, rfl, rfl, enters⟩

theorem arc_allocated (arc : t.Arc p x q) : t.Allocated p ∧ t.Allocated q := by
  obtain ⟨e, live, rfl, -, rfl⟩ := arc
  exact ⟨sound.srcAllocated live, sound.destAllocated live⟩

end

end Sound

/-- What `Add_State` does. -/
structure AddsState (t : Tables) (n : Nfa) (s : NfaState) (n' : Nfa) (t' : Tables) : Prop where
  fresh : ¬t.Allocated s
  allocated : ∀ p, t'.Allocated p ↔ t.Allocated p ∨ p = s
  live : ∀ e, t'.Live e ↔ t.Live e
  edgeSrc : t'.edgeSrc = t.edgeSrc
  edgeDest : t'.edgeDest = t.edgeDest
  edgeExpr : t'.edgeExpr = t.edgeExpr
  srcEdges : t'.srcEdges = t.srcEdges
  destEdges : t'.destEdges = t.destEdges
  index : t'.nodeIndex = t.nodeIndex
  terms : t'.terms = t.terms
  nfa : n' = { n with states := n.states ++ [s] }
  sound : t'.Sound

/-- The number behind the last one is the only one that comes into use. -/
theorem used_last (last : Nat) : ¬(1 ≤ last + 1 ∧ last + 1 ≤ last ∧ last + 1 ∉ ([] : List Nat)) ∧
    ∀ p, (1 ≤ p ∧ p ≤ last + 1 ∧ p ∉ ([] : List Nat)) ↔ (1 ≤ p ∧ p ≤ last ∧ p ∉ ([] : List Nat)) ∨ p = last + 1 := by
  simp only [List.not_mem_nil, not_false_eq_true, and_true]
  exact ⟨by omega, fun p => by omega⟩

/-- The first free number is the only one that comes into use. -/
theorem used_free {last s : Nat} {rest : List Nat} (free : (s :: rest).Nodup ∧ ∀ p ∈ s :: rest, 1 ≤ p ∧ p ≤ last) :
    ¬(1 ≤ s ∧ s ≤ last ∧ s ∉ s :: rest) ∧
      ∀ p, (1 ≤ p ∧ p ≤ last ∧ p ∉ rest) ↔ (1 ≤ p ∧ p ≤ last ∧ p ∉ s :: rest) ∨ p = s := by
  obtain ⟨nodup, bounds⟩ := free
  refine ⟨fun used => used.2.2 List.mem_cons_self, fun p => ?_⟩
  simp only [List.mem_cons, not_or]
  constructor
  · rintro ⟨positive, bound, outside⟩
    by_cases same : p = s
    · exact .inr same
    · exact .inl ⟨positive, bound, same, outside⟩
  · rintro (⟨positive, bound, -, outside⟩ | rfl)
    · exact ⟨positive, bound, outside⟩
    · exact ⟨(bounds p List.mem_cons_self).1, (bounds p List.mem_cons_self).2, (List.nodup_cons.mp nodup).1⟩

theorem newState_allocated (sound : t.Sound) : ¬t.Allocated t.newState.1 ∧
      ∀ p, t.newState.2.Allocated p ↔ t.Allocated p ∨ p = t.newState.1 := by
  have freeStates := sound.freeStates
  unfold newState Allocated
  cases free : t.freeStates with
  | nil => simpa only [free] using used_last t.lastState
  | cons s rest =>
    rw [free] at freeStates
    exact used_free freeStates

/-- The numbers that stay free. -/
theorem free_rest {last : Nat} {free rest : List Nat} (bounded : free.Nodup ∧ ∀ p ∈ free, 1 ≤ p ∧ p ≤ last)
    (tail : free.tail = rest) : rest.Nodup ∧ ∀ p ∈ rest, 1 ≤ p ∧ p ≤ last := by
  subst tail
  exact ⟨bounded.1.tail, fun p member => bounded.2 p (List.mem_of_mem_tail member)⟩

theorem newState_freeStates (sound : t.Sound) : t.newState.2.freeStates.Nodup ∧
      ∀ s ∈ t.newState.2.freeStates, 1 ≤ s ∧ s ≤ t.newState.2.lastState := by
  unfold newState
  cases free : t.freeStates with
  | nil => simp
  | cons s rest => exact free_rest sound.freeStates (by rw [free]; rfl)

/-- `newState` changes the numbers of the states in use only. -/
theorem newState_eq (t : Tables) : ∃ last free, t.newState.2 = { t with lastState := last, freeStates := free } := by
  unfold newState
  split
  · exact ⟨t.lastState + 1, t.freeStates, rfl⟩
  · next s rest _ => exact ⟨t.lastState, rest, rfl⟩

theorem Sound.addState (sound : t.Sound) (n : Nfa) :
    AddsState t n (t.addState n).1 (t.addState n).2.1 (t.addState n).2.2 := by
  obtain ⟨fresh, allocated⟩ := newState_allocated sound
  have freeStates := newState_freeStates sound
  obtain ⟨last, free, same⟩ := newState_eq t
  have noSrc : t.srcEdges t.newState.1 = [] := sound.src_nil_iff.mpr fun x q arc => fresh (sound.arc_allocated arc).1
  have noDest : t.destEdges t.newState.1 = [] :=
    sound.dest_nil_iff.mpr fun p x arc => fresh (sound.arc_allocated arc).2
  -- The chains of the new state were empty before.
  have whole : (t.addState n).2.2 = { t with
      lastState := last, freeStates := free, stateLabel := update t.stateLabel t.newState.1 0 } := by
    unfold Tables.addState
    dsimp only
    rw [same, Function.update_eq_self_iff.mpr noSrc.symm, Function.update_eq_self_iff.mpr noDest.symm]
  have allocated : ∀ p, (t.addState n).2.2.Allocated p ↔ t.Allocated p ∨ p = (t.addState n).1 := allocated
  have freeStates : (t.addState n).2.2.freeStates.Nodup ∧
    ∀ s ∈ (t.addState n).2.2.freeStates, 1 ≤ s ∧ s ≤ (t.addState n).2.2.lastState := freeStates
  generalize (t.addState n).2.2 = t' at whole allocated freeStates ⊢
  subst whole
  exact
    { fresh, allocated, live := fun _ => Iff.rfl, edgeSrc := rfl, edgeDest := rfl, edgeExpr := rfl, srcEdges := rfl
      destEdges := rfl, index := rfl, terms := rfl, nfa := rfl
      sound := { sound with
        srcAllocated := fun used => (allocated _).mpr (.inl (sound.srcAllocated used))
        destAllocated := fun used => (allocated _).mpr (.inl (sound.destAllocated used))
        freeStates } }

theorem AddsState.arc (adds : AddsState t n s n' t') : t'.Arc p x q ↔ t.Arc p x q := by
  unfold Arc
  rw [adds.edgeSrc, adds.edgeDest, adds.edgeExpr]
  simp only [adds.live]

/-- What `Add_Edge` does. -/
structure AddsEdge (t : Tables) (s d : NfaState) (expr : Option BoolNode) (e : NfaEdge) (t' : Tables) :
    Prop where
  fresh : ¬t.Live e
  live : ∀ e', t'.Live e' ↔ t.Live e' ∨ e' = e
  edgeSrc : t'.edgeSrc = update t.edgeSrc e s
  edgeDest : t'.edgeDest = update t.edgeDest e d
  edgeExpr : t'.edgeExpr = update t.edgeExpr e expr
  srcEdges : t'.srcEdges = update t.srcEdges s (e :: t.srcEdges s)
  destEdges : t'.destEdges = update t.destEdges d (e :: t.destEdges d)
  same : SameStates t t'
  sound : t'.Sound

theorem newEdge_live (sound : t.Sound) :
    ¬t.Live t.newEdge.1 ∧ ∀ e, t.newEdge.2.Live e ↔ t.Live e ∨ e = t.newEdge.1 := by
  have freeEdges := sound.freeEdges
  unfold newEdge Live
  cases free : t.freeEdges with
  | nil => simpa only [free] using used_last t.lastEdge
  | cons e rest =>
    rw [free] at freeEdges
    exact used_free freeEdges

theorem newEdge_freeEdges (sound : t.Sound) : t.newEdge.2.freeEdges.Nodup ∧
      ∀ e ∈ t.newEdge.2.freeEdges, 1 ≤ e ∧ e ≤ t.newEdge.2.lastEdge := by
  unfold newEdge
  cases free : t.freeEdges with
  | nil => simp
  | cons e rest => exact free_rest sound.freeEdges (by rw [free]; rfl)

/-- `newEdge` changes the numbers of the edges in use only. -/
theorem newEdge_eq (t : Tables) : ∃ last free, t.newEdge.2 = { t with lastEdge := last, freeEdges := free } := by
  unfold newEdge
  split
  · exact ⟨t.lastEdge + 1, t.freeEdges, rfl⟩
  · next e rest _ => exact ⟨t.lastEdge, rest, rfl⟩

/-- An edge is put in front of the chain of one of its ends. -/
theorem mem_pushed {chains : NfaState → List NfaEdge} {ends : NfaEdge → NfaState} {live live' : NfaEdge → Prop}
    (chained : ∀ {p e}, e ∈ chains p ↔ live e ∧ ends e = p) (fresh : ¬live e) (used : ∀ e', live' e' ↔ live e' ∨ e' = e) :
    e' ∈ update chains s (e :: chains s) p ↔ live' e' ∧ update ends e s e' = p := by
  rw [used]
  by_cases new : e' = e
  · subst new
    by_cases here : p = s
    · simp [here]
    · have outside : e' ∉ chains p := fun member => fresh (chained.mp member).1
      simp [here, outside, Ne.symm here]
  · by_cases here : p = s
    all_goals simp [here, new, chained]

theorem nodup_pushed {chains : NfaState → List NfaEdge} (nodup : ∀ p, (chains p).Nodup) (outside : e ∉ chains s)
    (p : NfaState) : (update chains s (e :: chains s) p).Nodup := by
  by_cases here : p = s
  · subst here
    rw [update_self]
    exact List.nodup_cons.mpr ⟨outside, nodup p⟩
  · rw [update_of_ne here]
    exact nodup p

theorem ends_pushed {ends : NfaEdge → NfaState} {live live' : NfaEdge → Prop} {allocated : NfaState → Prop}
    (ends' : ∀ {e'}, live e' → allocated (ends e')) (here : allocated s) (used : ∀ e', live' e' ↔ live e' ∨ e' = e)
    (is : live' e') : allocated (update ends e s e') := by
  by_cases new : e' = e
  · rw [new, update_self]
    exact here
  · rw [update_of_ne new]
    exact ends' (((used e').mp is).resolve_right new)

theorem Sound.addEdge (sound : t.Sound) (fromUsed : t.Allocated s) (toUsed : t.Allocated d) (expr : Option BoolNode) :
    AddsEdge t s d expr (t.addEdge s d expr).1 (t.addEdge s d expr).2 := by
  obtain ⟨fresh, live⟩ := newEdge_live sound
  have freeEdges := newEdge_freeEdges sound
  obtain ⟨last, free, same⟩ := newEdge_eq t
  have whole : (t.addEdge s d expr).2 = { t with
      lastEdge := last, freeEdges := free, edgeSrc := update t.edgeSrc t.newEdge.1 s
      edgeDest := update t.edgeDest t.newEdge.1 d, edgeExpr := update t.edgeExpr t.newEdge.1 expr
      srcEdges := update t.srcEdges s (t.newEdge.1 :: t.srcEdges s)
      destEdges := update t.destEdges d (t.newEdge.1 :: t.destEdges d) } := by
    unfold Tables.addEdge
    dsimp only
    rw [same]
  have live : ∀ e, (t.addEdge s d expr).2.Live e ↔ t.Live e ∨ e = t.newEdge.1 := live
  have freeEdges : (t.addEdge s d expr).2.freeEdges.Nodup ∧
    ∀ e ∈ (t.addEdge s d expr).2.freeEdges, 1 ≤ e ∧ e ≤ (t.addEdge s d expr).2.lastEdge := freeEdges
  show AddsEdge t s d expr t.newEdge.1 _
  generalize (t.addEdge s d expr).2 = t' at whole live freeEdges ⊢
  subst whole
  exact
    { fresh, live, edgeSrc := rfl, edgeDest := rfl, edgeExpr := rfl, srcEdges := rfl, destEdges := rfl
      same := ⟨rfl, rfl, rfl, rfl⟩
      sound := {
        src := mem_pushed sound.src fresh live
        dest := mem_pushed sound.dest fresh live
        srcNodup := nodup_pushed sound.srcNodup fun member => fresh (sound.live_of_src member)
        destNodup := nodup_pushed sound.destNodup fun member => fresh (sound.live_of_dest member)
        srcAllocated := ends_pushed sound.srcAllocated fromUsed live
        destAllocated := ends_pushed sound.destAllocated toUsed live
        freeEdges, freeStates := sound.freeStates, index := sound.index } }

theorem AddsEdge.arc (adds : AddsEdge t s d expr e t') : t'.Arc p x q ↔ t.Arc p x q ∨ p = s ∧ x = expr ∧ q = d := by
  unfold Arc
  rw [adds.edgeSrc, adds.edgeDest, adds.edgeExpr]
  constructor
  · rintro ⟨e', live, from', expr', to'⟩
    by_cases new : e' = e
    · subst new
      rw [update_self] at from' expr' to'
      exact .inr ⟨from'.symm, expr'.symm, to'.symm⟩
    · rw [update_of_ne new] at from' expr' to'
      exact .inl ⟨e', ((adds.live e').mp live).resolve_right new, from', expr', to'⟩
  · rintro (⟨e', live, from', expr', to'⟩ | ⟨rfl, rfl, rfl⟩)
    · have new : e' ≠ e := fun same => adds.fresh (same ▸ live)
      refine ⟨e', (adds.live e').mpr (.inl live), ?_, ?_, ?_⟩
      · rw [update_of_ne new, from']
      · rw [update_of_ne new, expr']
      · rw [update_of_ne new, to']
    · exact ⟨e, (adds.live e).mpr (.inr rfl), update_self .., update_self .., update_self ..⟩

end Tables

end Ghdl.Psl
