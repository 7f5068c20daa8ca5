import Ghdl.Automata.Path
import Ghdl.Psl.Chains

/-!
# Edits of an automaton

What `Remove_Edge`, `Remove_State`, `Redest_Edges` and `Resource_Edges` do to sound tables. None of them
fails under the conditions its callers establish.
-/

namespace Ghdl.Psl

open Automata Function

namespace Tables

variable {t t' t'' : Tables} {n n' : Nfa} {s d p q : NfaState} {e e' : NfaEdge} {es : List NfaEdge}
  {expr x : Option BoolNode}

/-- What `Remove_Edge` does to the edges ES. -/
structure RemovesEdges (t : Tables) (es : List NfaEdge) (t' : Tables) : Prop where
  live : ∀ e, t'.Live e ↔ t.Live e ∧ e ∉ es
  edgeSrc : t'.edgeSrc = t.edgeSrc
  edgeDest : t'.edgeDest = t.edgeDest
  edgeExpr : t'.edgeExpr = t.edgeExpr
  srcEdges : ∀ s, t'.srcEdges s = (t.srcEdges s).filter (· ∉ es)
  destEdges : ∀ s, t'.destEdges s = (t.destEdges s).filter (· ∉ es)
  same : SameStates t t'
  sound : t'.Sound

variable {chains : NfaState → List NfaEdge} {ends : NfaEdge → NfaState}

/-- An edge is taken out of the chain of one of its ends. -/
theorem erased_eq_filter {live : NfaEdge → Prop}
    (chained : ∀ {p e}, e ∈ chains p ↔ live e ∧ ends e = p) (nodup : ∀ p, (chains p).Nodup) (e : NfaEdge) (p : NfaState) :
    update chains (ends e) ((chains (ends e)).erase e) p = (chains p).filter (· ∉ [e]) := by
  by_cases here : p = ends e
  · rw [here, update_self, (nodup _).erase_eq_filter]
    exact List.filter_congr fun e' _ => by simp [bne, BEq.beq]
  · rw [update_of_ne here]
    refine (List.filter_eq_self.mpr fun e' member => ?_).symm
    have other : e' ≠ e := fun same => here (same ▸ (chained.mp member).2).symm
    simpa using other

theorem mem_erased {chain chain' : List NfaEdge} {live live' : NfaEdge → Prop}
    (chained : e' ∈ chain ↔ live e' ∧ ends e' = p) (same : chain' = chain.filter (· ∉ es))
    (still : live' e' ↔ live e' ∧ e' ∉ es) : e' ∈ chain' ↔ live' e' ∧ ends e' = p := by
  rw [same, List.mem_filter, decide_eq_true_iff, chained, still, and_right_comm]

/-- A number gets free. -/
theorem freed_iff {last k m : Nat} {free : List Nat} :
    (1 ≤ m ∧ m ≤ last ∧ m ∉ k :: free) ↔ (1 ≤ m ∧ m ≤ last ∧ m ∉ free) ∧ m ≠ k := by
  simp only [List.mem_cons, not_or]
  tauto

theorem freed_bounds {last k : Nat} {free : List Nat} (bounds : free.Nodup ∧ ∀ m ∈ free, 1 ≤ m ∧ m ≤ last)
    (used : 1 ≤ k ∧ k ≤ last ∧ k ∉ free) : (k :: free).Nodup ∧ ∀ m ∈ k :: free, 1 ≤ m ∧ m ≤ last := by
  refine ⟨List.nodup_cons.mpr ⟨used.2.2, bounds.1⟩, fun m member => ?_⟩
  rcases List.mem_cons.mp member with rfl | member
  · exact ⟨used.1, used.2.1⟩
  · exact bounds.2 m member

theorem Sound.removeEdge (sound : t.Sound) (live : t.Live e) :
    ∃ t', t.removeEdge e = .ok t' ∧ RemovesEdges t [e] t' := by
  have run : t.removeEdge e = .ok { t with
      srcEdges := update t.srcEdges (t.edgeSrc e) ((t.srcEdges (t.edgeSrc e)).erase e)
      destEdges := update t.destEdges (t.edgeDest e) ((t.destEdges (t.edgeDest e)).erase e)
      freeEdges := e :: t.freeEdges } := by
    simp only [Tables.removeEdge, disconnectEdgeSrc, disconnectEdgeDest, sound.mem_src live,
      sound.mem_dest live, if_true, bind, Except.bind]
    rfl
  refine ⟨_, run, ?_⟩
  have srcEdges := erased_eq_filter sound.src sound.srcNodup e
  have destEdges := erased_eq_filter sound.dest sound.destNodup e
  have still : ∀ e', (1 ≤ e' ∧ e' ≤ t.lastEdge ∧ e' ∉ e :: t.freeEdges) ↔ t.Live e' ∧ e' ∉ [e] := by
    intro e'
    rw [freed_iff, List.mem_singleton]
    rfl
  refine
    { live := still, edgeSrc := rfl, edgeDest := rfl, edgeExpr := rfl, srcEdges, destEdges
      same := ⟨rfl, rfl, rfl, rfl⟩, sound := ?_ }
  exact
    { src := mem_erased sound.src (srcEdges _) (still _)
      dest := mem_erased sound.dest (destEdges _) (still _)
      srcNodup := fun p => (congrArg List.Nodup (srcEdges p)).mpr ((sound.srcNodup p).filter _)
      destNodup := fun p => (congrArg List.Nodup (destEdges p)).mpr ((sound.destNodup p).filter _)
      srcAllocated := fun {e'} used => sound.srcAllocated ((still e').mp used).1
      destAllocated := fun {e'} used => sound.destAllocated ((still e').mp used).1
      freeEdges := freed_bounds sound.freeEdges live, freeStates := sound.freeStates, index := sound.index }

theorem RemovesEdges.nil (sound : t.Sound) : RemovesEdges t [] t where
  live e := by simp
  edgeSrc := rfl
  edgeDest := rfl
  edgeExpr := rfl
  srcEdges s := by simp
  destEdges s := by simp
  same := SameStates.refl t
  sound := sound

theorem RemovesEdges.trans {es' : List NfaEdge} (first : RemovesEdges t es t')
    (second : RemovesEdges t' es' t'') : RemovesEdges t (es ++ es') t'' where
  live e' := by
    rw [second.live, first.live, List.mem_append, not_or, and_assoc]
  edgeSrc := second.edgeSrc.trans first.edgeSrc
  edgeDest := second.edgeDest.trans first.edgeDest
  edgeExpr := second.edgeExpr.trans first.edgeExpr
  srcEdges s := by
    rw [second.srcEdges, first.srcEdges, List.filter_filter]
    refine List.filter_congr fun e' _ => ?_
    simp [Bool.and_comm]
  destEdges s := by
    rw [second.destEdges, first.destEdges, List.filter_filter]
    refine List.filter_congr fun e' _ => ?_
    simp [Bool.and_comm]
  same := first.same.trans second.same
  sound := second.sound

theorem Sound.removeEdges (sound : t.Sound) (nodup : es.Nodup) (live : ∀ e ∈ es, t.Live e) :
    ∃ t', es.foldlM Tables.removeEdge t = .ok t' ∧ RemovesEdges t es t' := by
  induction es generalizing t with
  | nil => exact ⟨t, rfl, .nil sound⟩
  | cons e es ih =>
    obtain ⟨t₁, run, removes⟩ := sound.removeEdge (live e List.mem_cons_self)
    have others : ∀ e' ∈ es, t₁.Live e' := by
      intro e' member
      refine (removes.live e').mpr ⟨live e' (List.mem_cons_of_mem _ member), fun same => ?_⟩
      have same : e' = e := List.mem_singleton.mp same
      exact (List.nodup_cons.mp nodup).1 (same ▸ member)
    obtain ⟨t₂, run', removes'⟩ := ih removes.sound (List.nodup_cons.mp nodup).2 others
    refine ⟨t₂, ?_, removes.trans removes'⟩
    rw [List.foldlM_cons, run]
    exact run'

theorem RemovesEdges.arc (removes : RemovesEdges t es t') : t'.Arc p x q ↔
      ∃ e, (t.Live e ∧ e ∉ es) ∧ t.edgeSrc e = p ∧ t.edgeExpr e = x ∧ t.edgeDest e = q := by
  unfold Arc
  rw [removes.edgeSrc, removes.edgeDest, removes.edgeExpr]
  simp only [removes.live]

theorem RemovesEdges.arc_or (removes : RemovesEdges t [e] t') (live : t.Live e) :
    t.Arc p x q ↔ t'.Arc p x q ∨ p = t.edgeSrc e ∧ x = t.edgeExpr e ∧ q = t.edgeDest e := by
  rw [removes.arc]
  constructor
  · rintro ⟨e', live', from', expr', to'⟩
    by_cases same : e' = e
    · subst same
      exact .inr ⟨from'.symm, expr'.symm, to'.symm⟩
    · exact .inl ⟨e', ⟨live', by simpa using same⟩, from', expr', to'⟩
  · rintro (⟨e', ⟨live', -⟩, ends⟩ | ⟨rfl, rfl, rfl⟩)
    · exact ⟨e', live', ends⟩
    · exact ⟨e, live, rfl, rfl, rfl⟩

/-- What `Redest_Edges` and `Resource_Edges` leave alone. -/
structure MovesEdges (t t' : Tables) : Prop where
  live : ∀ e, t'.Live e ↔ t.Live e
  edgeExpr : t'.edgeExpr = t.edgeExpr
  same : SameStates t t'
  sound : t'.Sound

theorem mem_moved (chain : ∀ {s e}, e ∈ chains s ↔ t.Live e ∧ ends e = s) : e ∈ update (update chains s []) d
        (chains s ++ update chains s [] d) p ↔ t.Live e ∧ (if e ∈ chains s then d else ends e) = p := by
  have outside : ∀ {q}, q ≠ s → e ∈ chains q → e ∉ chains s := fun other member member' =>
    other ((chain.mp member).2.symm.trans (chain.mp member').2)
  by_cases moved : e ∈ chains s
  · rw [if_pos moved]
    by_cases here : p = d
    · subst here
      rw [update_self, List.mem_append]
      exact ⟨fun _ => ⟨(chain.mp moved).1, rfl⟩, fun _ => .inl moved⟩
    rw [update_of_ne here]
    constructor
    · intro member
      by_cases same : p = s
      · rw [same, update_self] at member
        exact absurd member List.not_mem_nil
      · rw [update_of_ne same] at member
        exact absurd moved (outside same member)
    · rintro ⟨-, same⟩
      exact absurd same.symm here
  rw [if_neg moved]
  have rest : e ∈ update chains s [] p ↔ t.Live e ∧ ends e = p := by
    by_cases same : p = s
    · rw [same, update_self]
      constructor
      · exact fun member => absurd member List.not_mem_nil
      · exact fun ends => absurd (chain.mpr ends) moved
    · rw [update_of_ne same]
      exact chain
  by_cases here : p = d
  · subst here
    rw [update_self, List.mem_append, rest]
    exact ⟨fun member => member.resolve_left moved, .inr⟩
  · rw [update_of_ne here]
    exact rest

theorem moved_nodup (chain : ∀ {s e}, e ∈ chains s ↔ t.Live e ∧ ends e = s) (nodup : ∀ s, (chains s).Nodup) :
    (update (update chains s []) d (chains s ++ update chains s [] d) p).Nodup := by
  have emptied : ∀ q, (update chains s [] q).Nodup := by
    intro q
    by_cases same : q = s
    · rw [same, update_self]
      exact List.nodup_nil
    · rw [update_of_ne same]
      exact nodup q
  by_cases here : p = d
  · subst here
    rw [update_self]
    refine (nodup s).append (emptied p) fun e member member' => ?_
    by_cases same : p = s
    · rw [same, update_self] at member'
      exact absurd member' List.not_mem_nil
    · rw [update_of_ne same] at member'
      exact same ((chain.mp member').2.symm.trans (chain.mp member).2)
  · rw [update_of_ne here]
    exact emptied p

theorem ends_moved {chain : List NfaEdge} (used : t.Allocated d)
    (ends' : t.Allocated (ends e)) : t.Allocated (if e ∈ chain then d else ends e) := by
  split
  · exact used
  · exact ends'

section

variable (sound : t.Sound)
include sound

theorem Sound.redestEdges (used : t.Allocated d) : MovesEdges t (t.redestEdges s d) where
  live _ := Iff.rfl
  edgeExpr := rfl
  same := ⟨rfl, rfl, rfl, rfl⟩
  sound := { sound with
    dest := mem_moved sound.dest
    destNodup := fun _ => moved_nodup sound.dest sound.destNodup
    destAllocated := fun live => ends_moved used (sound.destAllocated live) }

theorem Sound.resourceEdges (used : t.Allocated d) : MovesEdges t (t.resourceEdges s d) where
  live _ := Iff.rfl
  edgeExpr := rfl
  same := ⟨rfl, rfl, rfl, rfl⟩
  sound := { sound with
    src := mem_moved sound.src
    srcNodup := fun _ => moved_nodup sound.src sound.srcNodup
    srcAllocated := fun live => ends_moved used (sound.srcAllocated live) }

theorem redestEdges_dest (live : t.Live e) :
    (t.redestEdges s d).edgeDest e = if t.edgeDest e = s then d else t.edgeDest e := by
  show (if e ∈ t.destEdges s then d else t.edgeDest e) = _
  refine if_congr ?_ rfl rfl
  rw [sound.dest]
  exact ⟨fun ends => ends.2, fun enters => ⟨live, enters⟩⟩

theorem resourceEdges_src (live : t.Live e) :
    (t.resourceEdges s d).edgeSrc e = if t.edgeSrc e = s then d else t.edgeSrc e := by
  show (if e ∈ t.srcEdges s then d else t.edgeSrc e) = _
  refine if_congr ?_ rfl rfl
  rw [sound.src]
  exact ⟨fun ends => ends.2, fun leaves => ⟨live, leaves⟩⟩

theorem redestEdges_arc : (t.redestEdges s d).Arc p x q ↔ Redirected t.Arc s d p x q := by
  constructor
  · rintro ⟨e, live, from', expr', to'⟩
    rw [redestEdges_dest sound live] at to'
    by_cases enters : t.edgeDest e = s
    · rw [if_pos enters] at to'
      exact .inr ⟨⟨e, live, from', expr', enters⟩, to'.symm⟩
    · rw [if_neg enters] at to'
      exact .inl ⟨⟨e, live, from', expr', to'⟩, to' ▸ enters⟩
  · rintro (⟨⟨e, live, from', expr', to'⟩, other⟩ | ⟨⟨e, live, from', expr', to'⟩, rfl⟩)
    · refine ⟨e, live, from', expr', ?_⟩
      rw [redestEdges_dest sound live, to', if_neg other]
    · refine ⟨e, live, from', expr', ?_⟩
      rw [redestEdges_dest sound live, if_pos to']

theorem resourceEdges_arc : (t.resourceEdges d s).Arc p x q ↔ Resourced t.Arc s d p x q := by
  constructor
  · rintro ⟨e, live, from', expr', to'⟩
    rw [resourceEdges_src sound live] at from'
    by_cases leaves : t.edgeSrc e = d
    · rw [if_pos leaves] at from'
      exact .inr ⟨⟨e, live, leaves, expr', to'⟩, from'.symm⟩
    · rw [if_neg leaves] at from'
      exact .inl ⟨⟨e, live, from', expr', to'⟩, from' ▸ leaves⟩
  · rintro (⟨⟨e, live, from', expr', to'⟩, other⟩ | ⟨⟨e, live, from', expr', to'⟩, rfl⟩)
    · refine ⟨e, live, ?_, expr', to'⟩
      rw [resourceEdges_src sound live, from', if_neg other]
    · refine ⟨e, live, ?_, expr', to'⟩
      rw [resourceEdges_src sound live, if_pos from']

end

/-- What the removal of a state does. -/
structure RemovesState (t : Tables) (n : Nfa) (s : NfaState) (n' : Nfa) (t' : Tables) : Prop where
  allocated : ∀ p, t'.Allocated p ↔ t.Allocated p ∧ p ≠ s
  live : ∀ e, t'.Live e ↔ t.Live e ∧ t.edgeSrc e ≠ s ∧ t.edgeDest e ≠ s
  edgeSrc : t'.edgeSrc = t.edgeSrc
  edgeDest : t'.edgeDest = t.edgeDest
  edgeExpr : t'.edgeExpr = t.edgeExpr
  index : t'.nodeIndex = t.nodeIndex
  terms : t'.terms = t.terms
  nfa : n' = { n with states := n.states.erase s }
  sound : t'.Sound

theorem Sound.removeUnconnectedState (sound : t.Sound) (n : Nfa) (used : t.Allocated s)
    (noSrc : ∀ x q, ¬t.Arc s x q) (noDest : ∀ p x, ¬t.Arc p x s) :
    ∃ n' t', t.removeUnconnectedState n s = .ok (n', t') ∧ RemovesState t n s n' t' ∧
      t'.srcEdges = t.srcEdges ∧ t'.destEdges = t.destEdges := by
  have empty : t.srcEdges s = [] ∧ t.destEdges s = [] := ⟨sound.src_nil_iff.mpr noSrc, sound.dest_nil_iff.mpr noDest⟩
  refine ⟨_, _, if_pos empty, ?_, rfl, rfl⟩
  have leaves : ∀ {e}, t.Live e → t.edgeSrc e ≠ s := fun {e} live same =>
    noSrc _ _ ⟨e, live, same, rfl, rfl⟩
  have enters : ∀ {e}, t.Live e → t.edgeDest e ≠ s := fun {e} live same =>
    noDest _ _ ⟨e, live, rfl, rfl, same⟩
  exact
    { allocated := fun _ => freed_iff, edgeSrc := rfl, edgeDest := rfl, edgeExpr := rfl, index := rfl, terms := rfl
      nfa := rfl, live := fun e => ⟨fun live => ⟨live, leaves live, enters live⟩, And.left⟩
      sound := { sound with
        srcAllocated := fun live => freed_iff.mpr ⟨sound.srcAllocated live, leaves live⟩
        destAllocated := fun live => freed_iff.mpr ⟨sound.destAllocated live, enters live⟩
        freeStates := freed_bounds sound.freeStates used } }

theorem Sound.removeState (sound : t.Sound) (n : Nfa) (used : t.Allocated s) :
    ∃ n' t', t.removeState n s = .ok (n', t') ∧ RemovesState t n s n' t' := by
  obtain ⟨t₁, run₁, removes₁⟩ := sound.removeEdges (sound.destNodup s) fun e member => sound.live_of_dest member
  obtain ⟨t₂, run₂, removes₂⟩ := removes₁.sound.removeEdges (removes₁.sound.srcNodup s)
    fun e member => removes₁.sound.live_of_src member
  have live : ∀ e, t₂.Live e ↔ t.Live e ∧ t.edgeSrc e ≠ s ∧ t.edgeDest e ≠ s := by
    intro e
    rw [removes₂.live, removes₁.live, removes₁.sound.src, removes₁.live, sound.dest, removes₁.edgeSrc]
    constructor
    · rintro ⟨⟨live, enters⟩, leaves⟩
      exact ⟨live, fun same => leaves ⟨⟨live, enters⟩, same⟩, fun same => enters ⟨live, same⟩⟩
    · rintro ⟨live, leaves, enters⟩
      exact ⟨⟨live, fun ends => enters ends.2⟩, fun ends => leaves ends.2⟩
  have edgeSrc := removes₂.edgeSrc.trans removes₁.edgeSrc
  have edgeDest := removes₂.edgeDest.trans removes₁.edgeDest
  have same := removes₁.same.trans removes₂.same
  have noSrc : ∀ x q, ¬t₂.Arc s x q := by
    rintro x q ⟨e, live', from', -, -⟩
    rw [edgeSrc] at from'
    exact ((live e).mp live').2.1 from'
  have noDest : ∀ p x, ¬t₂.Arc p x s := by
    rintro p x ⟨e, live', -, -, to'⟩
    rw [edgeDest] at to'
    exact ((live e).mp live').2.2 to'
  obtain ⟨n', t', run, removes, -, -⟩ :=
    removes₂.sound.removeUnconnectedState n (same.allocated.mpr used) noSrc noDest
  refine ⟨n', t', ?_, ?_⟩
  · simp only [Tables.removeState, run₁, run₂, bind, Except.bind]
    exact run
  refine
    { allocated := fun p => ?_, live := fun e => ?_
      edgeSrc := removes.edgeSrc.trans edgeSrc, edgeDest := removes.edgeDest.trans edgeDest
      edgeExpr := removes.edgeExpr.trans (removes₂.edgeExpr.trans removes₁.edgeExpr)
      index := removes.index.trans same.index, terms := removes.terms.trans same.terms
      nfa := removes.nfa, sound := removes.sound }
  · rw [removes.allocated, same.allocated]
  · rw [removes.live, live, edgeSrc, edgeDest]
    exact ⟨And.left, fun ends => ⟨ends, ends.2⟩⟩

theorem RemovesState.arc (removes : RemovesState t n s n' t') : t'.Arc p x q ↔ t.Arc p x q ∧ p ≠ s ∧ q ≠ s := by
  unfold Arc
  rw [removes.edgeSrc, removes.edgeDest, removes.edgeExpr]
  constructor
  · rintro ⟨e, live, rfl, rfl, rfl⟩
    obtain ⟨live, leaves, enters⟩ := (removes.live e).mp live
    exact ⟨⟨e, live, rfl, rfl, rfl⟩, leaves, enters⟩
  · rintro ⟨⟨e, live, rfl, rfl, rfl⟩, leaves, enters⟩
    exact ⟨e, (removes.live e).mpr ⟨live, leaves, enters⟩, rfl, rfl, rfl⟩

end Tables

end Ghdl.Psl
