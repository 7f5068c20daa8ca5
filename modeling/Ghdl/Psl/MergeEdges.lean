import Ghdl.Psl.Labels
import Ghdl.Psl.Ownership
import Ghdl.Psl.Unreachable

/-!
# Merged edges

`Merge_Edges` of `psl-optimize`: the edges from one state to another one are merged into the first of them, whose
expression becomes the disjunction of theirs. The labels of the states are the indexes of an array of edges.
-/

namespace Ghdl.Psl

open Automata Fallible Function

namespace Tables

/-- `Set_Edge_Expr`. -/
def setEdgeExpr (t : Tables) (e : NfaEdge) (expr : Option BoolNode) : Tables :=
  { t with edgeExpr := update t.edgeExpr e expr }

/-- `Build_Bool_Or` of the expressions of two edges. The kind of a null node is not that of a node. -/
def orExpr : Option BoolNode → Option BoolNode → Outcome (Option BoolNode)
  | some l, some r => .ok (some (buildBoolOr l r))
  | _, _ => .error .programError

/-- The body of the inner loop of `Merge_Edges`, for one edge: the tables, and the array of edges. -/
def mergeEdge (nbrStates : Nat) (state : Tables × (Nat → Option NfaEdge)) (e : NfaEdge) :
    Outcome (Tables × (Nat → Option NfaEdge)) :=
  let d := state.1.stateLabel (state.1.edgeDest e)
  if d < nbrStates then
    match state.2 d with
    | some first => do
      let expr ← orExpr (state.1.edgeExpr first) (state.1.edgeExpr e)
      let t ← (state.1.setEdgeExpr first expr).removeEdge e
      return (t, state.2)
    | none => .ok (state.1, update state.2 d (some e))
  else .error .constraintError

/-- The edges from one state: the next edge is read before the edge is removed. -/
def mergeSrcEdges (nbrStates : Nat) (t : Tables) (s : NfaState) : Outcome Tables := do
  let (t, _) ← (t.srcEdges s).foldlM (mergeEdge nbrStates) (t, fun _ => none)
  return t

/-- `Merge_Edges`. -/
def mergeEdges (t : Tables) (n : Nfa) : Outcome Tables :=
  let (t, nbrStates) := t.labelizeStates n
  n.states.foldlM (mergeSrcEdges nbrStates) t

variable {t t' t'' t₀ : Tables} {n n' : Nfa} {s p q root : NfaState} {e f : NfaEdge} {es rest : List NfaEdge}
  {edges : Nat → Option NfaEdge} {ss : List NfaState} {nbr : Nat}

/-- Edges are merged: the words that are read between two states stay the same, and so do the states that are next to
each other. -/
structure Merges (t t' : Tables) : Prop where
  sound : t'.Sound
  loud : t'.Loud
  live : ∀ e, t'.Live e → t.Live e
  edgeSrc : t'.edgeSrc = t.edgeSrc
  edgeDest : t'.edgeDest = t.edgeDest
  label : t'.stateLabel = t.stateLabel
  same : SameStates t t'
  step : ∀ p o q, t'.Step p o q ↔ t.Step p o q
  neighbour : ∀ p q, t'.Neighbour .src p q ↔ t.Neighbour .src p q

theorem Merges.refl (sound : t.Sound) (loud : t.Loud) : Merges t t where
  sound := sound
  loud := loud
  live _ live := live
  edgeSrc := rfl
  edgeDest := rfl
  label := rfl
  same := SameStates.refl t
  step _ _ _ := Iff.rfl
  neighbour _ _ := Iff.rfl

theorem Merges.trans (first : Merges t t') (second : Merges t' t'') : Merges t t'' where
  sound := second.sound
  loud := second.loud
  live e live := first.live e (second.live e live)
  edgeSrc := second.edgeSrc.trans first.edgeSrc
  edgeDest := second.edgeDest.trans first.edgeDest
  label := second.label.trans first.label
  same := first.same.trans second.same
  step p o q := (second.step p o q).trans (first.step p o q)
  neighbour p q := (second.neighbour p q).trans (first.neighbour p q)

theorem Sound.setEdgeExpr (sound : t.Sound) (f : NfaEdge) (x : Option BoolNode) : (t.setEdgeExpr f x).Sound where
  src := sound.src
  dest := sound.dest
  srcNodup := sound.srcNodup
  destNodup := sound.destNodup
  srcAllocated := sound.srcAllocated
  destAllocated := sound.destAllocated
  freeEdges := sound.freeEdges
  freeStates := sound.freeStates
  index := sound.index

theorem removeEdge_label (run : t.removeEdge e = .ok t') : t'.stateLabel = t.stateLabel := by
  unfold removeEdge disconnectEdgeSrc disconnectEdgeDest at run
  obtain ⟨t₁, first, run⟩ := bind_ok.mp run
  obtain ⟨t₂, second, run⟩ := bind_ok.mp run
  split at first
  · cases first
    split at second
    · cases second
      cases run
      rfl
    · cases second
  · cases first

theorem Sound.mergeInto (sound : t.Sound) (loud : t.Loud) (liveF : t.Live f) (liveE : t.Live e) (different : f ≠ e)
    (sameSrc : t.edgeSrc f = t.edgeSrc e) (sameDest : t.edgeDest f = t.edgeDest e) :
    ∃ x t', orExpr (t.edgeExpr f) (t.edgeExpr e) = .ok x ∧ (t.setEdgeExpr f x).removeEdge e = .ok t' ∧ Merges t t' ∧
      ∀ e', t'.Live e' ↔ t.Live e' ∧ e' ≠ e := by
  have expr : ∀ {e}, t.Live e → ∃ b, t.edgeExpr e = some b := fun {e} live => by
    cases isExpr : t.edgeExpr e with
    | none => exact absurd ⟨e, live, rfl, isExpr, rfl⟩ (loud _ _)
    | some b => exact ⟨b, rfl⟩
  obtain ⟨l, isL⟩ := expr liveF
  obtain ⟨r, isR⟩ := expr liveE
  obtain ⟨t', run, removes⟩ := (sound.setEdgeExpr f (some (buildBoolOr l r))).removeEdge (e := e) liveE
  have live : ∀ e', t'.Live e' ↔ t.Live e' ∧ e' ≠ e := fun e' => by
    rw [removes.live, List.mem_singleton]
    exact Iff.rfl
  have atF : t'.edgeExpr f = some (buildBoolOr l r) := by
    rw [removes.edgeExpr]
    exact update_self _ _ _
  have atOther : ∀ e', e' ≠ f → t'.edgeExpr e' = t.edgeExpr e' := fun e' other => by
    rw [removes.edgeExpr]
    exact update_of_ne other _ _
  have edgeSrc : t'.edgeSrc = t.edgeSrc := removes.edgeSrc
  have edgeDest : t'.edgeDest = t.edgeDest := removes.edgeDest
  have liveF' : t'.Live f := (live f).mpr ⟨liveF, different⟩
  have loud' : t'.Loud := by
    rintro p q ⟨e', live', -, isExpr, -⟩
    by_cases same : e' = f
    · rw [same, atF] at isExpr
      cases isExpr
    · rw [atOther e' same] at isExpr
      exact loud _ _ ⟨e', ((live e').mp live').1, rfl, isExpr, rfl⟩
  refine ⟨_, t', by rw [isL, isR]; rfl, run, ⟨removes.sound, loud', fun e' live' => ((live e').mp live').1, edgeSrc, edgeDest, ?_, ?_,
    fun p o q => ?_, fun p q => ?_⟩, live⟩
  · exact removeEdge_label (t := t.setEdgeExpr f (some (buildBoolOr l r))) run
  · exact ⟨removes.same.lastState, removes.same.freeStates, removes.same.index, removes.same.terms⟩
  · cases o with
    | none => exact iff_of_false (loud' p q) (loud p q)
    | some letter =>
      constructor
      · rintro ⟨b, ⟨e', live', from', isExpr, to'⟩, holds⟩
        rw [edgeSrc] at from'
        rw [edgeDest] at to'
        by_cases same : e' = f
        · subst same
          rw [atF, Option.some.injEq] at isExpr
          have either : (buildBoolOr l r).eval letter = true := by
            rw [isExpr]
            exact holds
          rw [eval_buildBoolOr, Bool.or_eq_true] at either
          rcases either with left | right
          · exact ⟨l, ⟨e', liveF, from', isL, to'⟩, left⟩
          · exact ⟨r, ⟨e, liveE, sameSrc.symm.trans from', isR, sameDest.symm.trans to'⟩, right⟩
        · rw [atOther e' same] at isExpr
          exact ⟨b, ⟨e', ((live e').mp live').1, from', isExpr, to'⟩, holds⟩
      · rintro ⟨b, ⟨e', live', from', isExpr, to'⟩, holds⟩
        by_cases merged : e' = f ∨ e' = e
        · have isOr : (buildBoolOr l r).eval letter = true := by
            have holds' : b.eval letter = true := holds
            rw [eval_buildBoolOr, Bool.or_eq_true]
            rcases merged with rfl | rfl
            · rw [isL, Option.some.injEq] at isExpr
              exact Or.inl (isExpr ▸ holds')
            · rw [isR, Option.some.injEq] at isExpr
              exact Or.inr (isExpr ▸ holds')
          have ends : t.edgeSrc f = p ∧ t.edgeDest f = q := by
            rcases merged with rfl | rfl
            · exact ⟨from', to'⟩
            · exact ⟨sameSrc.trans from', sameDest.trans to'⟩
          exact ⟨_, ⟨f, liveF', edgeSrc ▸ ends.1, atF, edgeDest ▸ ends.2⟩, isOr⟩
        · rw [not_or] at merged
          exact ⟨b, ⟨e', (live e').mpr ⟨live', merged.2⟩, edgeSrc ▸ from', (atOther e' merged.1).trans isExpr, edgeDest ▸ to'⟩, holds⟩
  · constructor
    · rintro ⟨x, e', live', from', -, to'⟩
      rw [edgeSrc] at from'
      rw [edgeDest] at to'
      exact ⟨_, e', ((live e').mp live').1, from', rfl, to'⟩
    · rintro ⟨x, e', live', from', -, to'⟩
      by_cases same : e' = e
      · subst same
        exact ⟨_, f, liveF', edgeSrc ▸ sameSrc.trans from', rfl, edgeDest ▸ sameDest.trans to'⟩
      · exact ⟨_, e', (live e').mpr ⟨live', same⟩, edgeSrc ▸ from', rfl, edgeDest ▸ to'⟩

/-- Where the inner loop is: the edges REST are still to be looked at, and the others from the state are in the array. -/
structure Merging (t : Tables) (n : Nfa) (s : NfaState) (rest : List NfaEdge) (edges : Nat → Option NfaEdge) : Prop where
  ahead : ∀ e ∈ rest, t.Live e ∧ t.edgeSrc e = s
  nodup : rest.Nodup
  seen : ∀ e, t.Live e → t.edgeSrc e = s → e ∈ rest ∨ edges (t.stateLabel (t.edgeDest e)) = some e
  array : ∀ d f, edges d = some f → (t.Live f ∧ t.edgeSrc f = s) ∧ t.stateLabel (t.edgeDest f) = d ∧ f ∉ rest

/-- The labels of the states of an automaton are different indexes. -/
structure Indexed (t : Tables) (n : Nfa) (nbr : Nat) : Prop where
  bound : ∀ s ∈ n.states, t.stateLabel s < nbr
  injective : ∀ s ∈ n.states, ∀ s' ∈ n.states, t.stateLabel s = t.stateLabel s' → s = s'

theorem Merges.indexed (merges : Merges t t') (indexed : Indexed t n nbr) : Indexed t' n nbr := by
  refine ⟨?_, ?_⟩
  · rw [merges.label]
    exact indexed.bound
  · rw [merges.label]
    exact indexed.injective

theorem Merges.owned (merges : Merges t t') (owned : t.Owned n) : t'.Owned n := by
  refine ⟨owned.nodup, fun s inside => merges.same.allocated.mpr (owned.used s inside), fun {p x q} arc => ?_, owned.start, owned.final⟩
  obtain ⟨x', arc'⟩ := (merges.neighbour p q).mp ⟨x, arc⟩
  exact owned.closed arc'

theorem mergeEdge_foldl (sound : t.Sound) (loud : t.Loud) (owned : t.Owned n) (indexed : Indexed t n nbr) (inside : s ∈ n.states)
    (merging : Merging t n s rest edges) : ∃ t' edges', rest.foldlM (mergeEdge nbr) (t, edges) = .ok (t', edges') ∧ Merges t t' ∧
      Merging t' n s [] edges' := by
  induction rest generalizing t edges with
  | nil => exact ⟨t, edges, rfl, .refl sound loud, merging⟩
  | cons e rest ih =>
    obtain ⟨liveE, srcE⟩ := merging.ahead e List.mem_cons_self
    obtain ⟨outside, nodup⟩ := List.nodup_cons.mp merging.nodup
    have dest : ∀ {e}, t.Live e → t.edgeSrc e = s → t.edgeDest e ∈ n.states := fun {e} live from' =>
      (owned.closed ⟨e, live, from', rfl, rfl⟩).mp inside
    have below := indexed.bound _ (dest liveE srcE)
    have ahead : ∀ e' ∈ rest, t.Live e' ∧ t.edgeSrc e' = s := fun e' member => merging.ahead e' (List.mem_cons_of_mem e member)
    rw [List.foldlM_cons]
    cases isEdge : edges (t.stateLabel (t.edgeDest e)) with
    | some f =>
      obtain ⟨⟨liveF, srcF⟩, label, notAhead⟩ := merging.array _ f isEdge
      have different : f ≠ e := fun same => notAhead (same ▸ List.mem_cons_self)
      have sameDest := indexed.injective _ (dest liveF srcF) _ (dest liveE srcE) label
      obtain ⟨x, t₁, isOr, run, merges, live⟩ := sound.mergeInto loud liveF liveE different (srcF.trans srcE.symm) sameDest
      have step : mergeEdge nbr (t, edges) e = .ok (t₁, edges) := by
        unfold mergeEdge
        dsimp only
        rw [if_pos below, isEdge]
        dsimp only
        rw [isOr]
        dsimp only [bind, Except.bind]
        rw [run]
        rfl
      have merging₁ : Merging t₁ n s rest edges := by
        refine ⟨fun e' member => ?_, nodup, fun e' live' from' => ?_, fun d f' isF => ?_⟩
        · obtain ⟨live', from'⟩ := ahead e' member
          exact ⟨(live e').mpr ⟨live', fun same => outside (same ▸ member)⟩, merges.edgeSrc ▸ from'⟩
        · obtain ⟨live', other⟩ := (live e').mp live'
          rw [merges.edgeSrc] at from'
          rw [merges.label, merges.edgeDest]
          rcases merging.seen e' live' from' with member | isEdge'
          · exact Or.inl ((List.mem_cons.mp member).resolve_left other)
          · exact Or.inr isEdge'
        · obtain ⟨⟨live', from'⟩, label', notAhead'⟩ := merging.array d f' isF
          rw [merges.label, merges.edgeDest, merges.edgeSrc]
          have other : f' ≠ e := fun same => notAhead' (same ▸ List.mem_cons_self)
          exact ⟨⟨(live f').mpr ⟨live', other⟩, from'⟩, label', fun member => notAhead' (List.mem_cons_of_mem e member)⟩
      obtain ⟨t', edges', run', merges', merged⟩ := ih merges.sound merges.loud (merges.owned owned) (merges.indexed indexed) merging₁
      refine ⟨t', edges', ?_, merges.trans merges', merged⟩
      rw [step]
      exact run'
    | none =>
      have step : mergeEdge nbr (t, edges) e = .ok (t, update edges (t.stateLabel (t.edgeDest e)) (some e)) := by
        unfold mergeEdge
        dsimp only
        rw [if_pos below, isEdge]
      have merging₁ : Merging t n s rest (update edges (t.stateLabel (t.edgeDest e)) (some e)) := by
        refine ⟨ahead, nodup, fun e' live' from' => ?_, fun d f' isF => ?_⟩
        · rcases merging.seen e' live' from' with member | isEdge'
          · rcases List.mem_cons.mp member with rfl | member
            · exact Or.inr (update_self _ _ _)
            · exact Or.inl member
          · right
            rw [update_of_ne fun same => ?_, isEdge']
            rw [same, isEdge] at isEdge'
            cases isEdge'
        · by_cases same : d = t.stateLabel (t.edgeDest e)
          · rw [same, update_self] at isF
            obtain rfl := Option.some.inj isF
            exact ⟨⟨liveE, srcE⟩, same.symm, outside⟩
          · rw [update_of_ne same] at isF
            obtain ⟨live', label', notAhead'⟩ := merging.array d f' isF
            exact ⟨live', label', fun member => notAhead' (List.mem_cons_of_mem e member)⟩
      obtain ⟨t', edges', run', merges', merged⟩ := ih sound loud owned indexed merging₁
      refine ⟨t', edges', ?_, merges', merged⟩
      rw [step]
      exact run'

/-- No two edges from the state go to one state. -/
def Merged (t : Tables) (s : NfaState) : Prop :=
  ∀ e e', t.Live e → t.Live e' → t.edgeSrc e = s → t.edgeSrc e' = s → t.edgeDest e = t.edgeDest e' → e = e'

theorem Merges.merged (merges : Merges t t') (merged : t.Merged s) : t'.Merged s := by
  intro e e' live live'
  rw [merges.edgeSrc, merges.edgeDest]
  exact merged e e' (merges.live e live) (merges.live e' live')

theorem mergeSrcEdges_spec (sound : t.Sound) (loud : t.Loud) (owned : t.Owned n) (indexed : Indexed t n nbr) (inside : s ∈ n.states) :
    ∃ t', mergeSrcEdges nbr t s = .ok t' ∧ Merges t t' ∧ t'.Merged s := by
  have merging : Merging t n s (t.srcEdges s) fun _ => none :=
    ⟨fun e member => sound.src.mp member, sound.srcNodup s, fun e live from' => Or.inl (sound.src.mpr ⟨live, from'⟩), fun _ _ isF => nomatch isF⟩
  obtain ⟨t', edges', run, merges, merged⟩ := mergeEdge_foldl sound loud owned indexed inside merging
  refine ⟨t', ?_, merges, fun e e' live live' from' from'' same => ?_⟩
  · unfold mergeSrcEdges
    rw [run]
    rfl
  have first := (merged.seen e live from').resolve_left List.not_mem_nil
  have second := (merged.seen e' live' from'').resolve_left List.not_mem_nil
  rw [same, second] at first
  exact (Option.some.inj first).symm

theorem mergeSrcEdges_foldl (sound : t.Sound) (loud : t.Loud) (owned : t.Owned n) (indexed : Indexed t n nbr) (inside : ∀ s ∈ ss, s ∈ n.states) :
    ∃ t', ss.foldlM (mergeSrcEdges nbr) t = .ok t' ∧ Merges t t' ∧ ∀ s ∈ ss, t'.Merged s := by
  induction ss generalizing t with
  | nil => exact ⟨t, rfl, .refl sound loud, fun _ member => absurd member List.not_mem_nil⟩
  | cons s ss ih =>
    obtain ⟨t₁, run, merges, merged⟩ := mergeSrcEdges_spec sound loud owned indexed (inside s List.mem_cons_self)
    obtain ⟨t', run', merges', merged'⟩ := ih merges.sound merges.loud (merges.owned owned) (merges.indexed indexed)
      fun p member => inside p (List.mem_cons_of_mem s member)
    refine ⟨t', ?_, merges.trans merges', fun p member => ?_⟩
    · rw [List.foldlM_cons, run]
      exact run'
    · rcases List.mem_cons.mp member with rfl | member
      · exact merges'.merged merged
      · exact merged' p member

theorem Owned.indexed (owned : t.Owned n) : ∃ labels nbr, t.labelizeStates n = ({ t with stateLabel := labels }, nbr) ∧
    Indexed { t with stateLabel := labels } n nbr := by
  obtain ⟨labels, run, final, start, others⟩ := labelizeStates_eq owned.nodup t
  refine ⟨labels, _, run, ?_⟩
  by_cases apart : n.start = n.final
  · have length := length_labelled n
    have members : ∀ s ∈ n.states, s ∈ inner n n.states ∨ s = n.final := fun s inside => by
      by_cases last : s = n.final
      · exact Or.inr last
      · refine Or.inl (List.mem_filter.mpr ⟨inside, ?_⟩)
        rw [apart]
        simpa using last
    have small : ∀ s ∈ inner n n.states, (inner n n.states).idxOf s < (inner n n.states).length :=
      fun s member => List.idxOf_lt_length_iff.mpr member
    refine ⟨fun s inside => ?_, fun s inside s' inside' same => ?_⟩
    · show labels s < _
      rcases members s inside with member | rfl
      · have below := small s member
        rw [others s member]
        omega
      · omega
    · have same' : labels s = labels s' := same
      rcases members s inside with member | rfl
      · have below := small s member
        rw [others s member] at same'
        rcases members s' inside' with member' | rfl
        · rw [others s' member'] at same'
          exact (List.idxOf_inj member).mp (by omega)
        · omega
      · rcases members s' inside' with member' | rfl
        · have below := small s' member'
          rw [others s' member'] at same'
          omega
        · rfl
  · have labelled := owned.labelled apart final (start apart) others
    exact ⟨labelled.bound, labelled.injective⟩

theorem Merges.reaches (merges : Merges t t') (side : Side) : t'.Reaches side root s ↔ t.Reaches side root s := by
  have same : t'.Neighbour side = t.Neighbour side := by
    funext p q
    cases side with
    | src => exact propext (merges.neighbour p q)
    | dest => exact propext (merges.neighbour q p)
  unfold Reaches
  rw [same]

/-- `Merge_Edges` keeps the words of the automaton, and leaves one edge from a state to another one. -/
theorem Operand.mergeEdges (operand : t.Operand n) : ∃ t', t.mergeEdges n = .ok t' ∧
    (∀ p w q, Path t'.Step p w q ↔ Path t.Step p w q) ∧ (∀ side root s, t'.Reaches side root s ↔ t.Reaches side root s) ∧
    ∀ s ∈ n.states, t'.Merged s := by
  obtain ⟨labels, nbr, run, indexed⟩ := operand.owned.indexed
  obtain ⟨labelled, isLabelled⟩ : ∃ labelled : Tables, labelled = { t with stateLabel := labels } := ⟨_, rfl⟩
  have sound : labelled.Sound := by
    rw [isLabelled]
    exact ⟨operand.sound.src, operand.sound.dest, operand.sound.srcNodup, operand.sound.destNodup, operand.sound.srcAllocated,
      operand.sound.destAllocated, operand.sound.freeEdges, operand.sound.freeStates, operand.sound.index⟩
  have loud : labelled.Loud := by rw [isLabelled]; exact operand.loud
  have owned : labelled.Owned n := by
    rw [isLabelled]
    exact ⟨operand.owned.nodup, operand.owned.used, operand.owned.closed, operand.owned.start, operand.owned.final⟩
  have step : labelled.Step = t.Step := by rw [isLabelled]; rfl
  have neighbour : ∀ side root s, labelled.Reaches side root s ↔ t.Reaches side root s := by rw [isLabelled]; exact fun _ _ _ => Iff.rfl
  rw [← isLabelled] at run indexed
  obtain ⟨t', run', merges, merged⟩ := mergeSrcEdges_foldl sound loud owned indexed fun s inside => inside
  refine ⟨t', ?_, fun p w q => Path.congr fun p o q => ?_, fun side root s => (merges.reaches side).trans (neighbour side root s), merged⟩
  · unfold Tables.mergeEdges
    rw [run]
    exact run'
  · rw [merges.step, step]

end Tables

end Ghdl.Psl
