import Ghdl.Sorting.Merge
import Ghdl.Psl.Edits

/-!
# Sorted chains and identical edges

`Sort_Edges` of `psl-nfas-utils` and `Remove_Identical_Src_Edges`, `Remove_Identical_Dest_Edges` of
`psl-optimize`. The source writes them once for the chains of sources and once for the chains of
destinations; here the side is an argument.
-/

namespace Ghdl.Psl

open Function

/-- The chains of sources or the chains of destinations. -/
inductive Side where
  | src
  | dest
deriving DecidableEq, Repr

/-- The other side. -/
def Side.reverse : Side → Side
  | src => dest
  | dest => src

namespace Tables

/-- The chain of a state on a side. -/
def chain (t : Tables) : Side → NfaState → List NfaEdge
  | .src => t.srcEdges
  | .dest => t.destEdges

/-- The end of an edge on a side. -/
def edgeEnd (t : Tables) : Side → NfaEdge → NfaState
  | .src => t.edgeSrc
  | .dest => t.edgeDest

/-- The chain of a state on a side is replaced. -/
def setChain (t : Tables) (side : Side) (s : NfaState) (edges : List NfaEdge) : Tables :=
  match side with
  | .src => { t with srcEdges := update t.srcEdges s edges }
  | .dest => { t with destEdges := update t.destEdges s edges }

/-- The number of the expression of an edge, zero for `Null_Node`. -/
def exprIndex (t : Tables) (e : NfaEdge) : Nat :=
  match t.edgeExpr e with
  | none => 0
  | some b => t.nodeIndex b + 1

/-- `Lt` of `Edges_Merge_Sort`, for the chains of a side. -/
def edgeLt (t : Tables) (side : Side) (l r : NfaEdge) : Bool :=
  decide (t.exprIndex l < t.exprIndex r ∨
    t.exprIndex l = t.exprIndex r ∧ t.edgeEnd side.reverse l < t.edgeEnd side.reverse r)

/-- `Sort_Edges` of one state. -/
def sortEdges (t : Tables) (side : Side) (s : NfaState) : Tables :=
  let edges := t.chain side s
  t.setChain side s (Sorting.mergeSort (t.edgeLt side) edges.length edges)

/-- `Sort_Edges` of an automaton. -/
def sortAllEdges (t : Tables) (side : Side) (n : Nfa) : Tables :=
  n.states.foldl (fun t s => t.sortEdges side s) t

/-- The edges have the same expression and the same state on the other side. -/
def Identical (t : Tables) (side : Side) (e e' : NfaEdge) : Prop :=
  t.edgeEnd side.reverse e = t.edgeEnd side.reverse e' ∧ t.edgeExpr e = t.edgeExpr e'

instance (t : Tables) (side : Side) : DecidableRel (t.Identical side) := fun _ _ =>
  inferInstanceAs (Decidable (_ ∧ _))

/-- The loop of `Remove_Identical_Src_Edges` from the edge E, with the chain after it. -/
def removeRepeated (side : Side) (e : NfaEdge) : List NfaEdge → Tables → Outcome Tables
  | [], t => .ok t
  | next :: rest, t =>
    if t.Identical side e next then do
      let t ← t.removeEdge next
      removeRepeated side e rest t
    else removeRepeated side next rest t

/-- `Remove_Identical_Src_Edges` and `Remove_Identical_Dest_Edges`. -/
def removeIdenticalEdges (t : Tables) (side : Side) (s : NfaState) : Outcome Tables :=
  let t := t.sortEdges side s
  match t.chain side s with
  | [] => .ok t
  | e :: rest => removeRepeated side e rest t

/-- `Remove_Identical_Src_Edges`. -/
def removeIdenticalSrcEdges (t : Tables) (s : NfaState) : Outcome Tables :=
  t.removeIdenticalEdges .src s

/-- `Remove_Identical_Dest_Edges`. -/
def removeIdenticalDestEdges (t : Tables) (s : NfaState) : Outcome Tables :=
  t.removeIdenticalEdges .dest s

variable {t t' : Tables} {side : Side} {n n' : Nfa} {s p q : NfaState} {e e' : NfaEdge}
  {es : List NfaEdge} {x : Option BoolNode}

theorem Sound.chain (sound : t.Sound) : e ∈ t.chain side s ↔ t.Live e ∧ t.edgeEnd side e = s := by
  cases side with
  | src => exact sound.src
  | dest => exact sound.dest

theorem Sound.chainNodup (sound : t.Sound) (side : Side) (s : NfaState) : (t.chain side s).Nodup := by
  cases side with
  | src => exact sound.srcNodup s
  | dest => exact sound.destNodup s

/-- What the sort of the chain of a state does. -/
structure SortsEdges (t : Tables) (side : Side) (s : NfaState) (t' : Tables) : Prop where
  live : ∀ e, t'.Live e ↔ t.Live e
  edgeSrc : t'.edgeSrc = t.edgeSrc
  edgeDest : t'.edgeDest = t.edgeDest
  edgeExpr : t'.edgeExpr = t.edgeExpr
  chain : t'.chain side = update (t.chain side) s
    (Sorting.mergeSort (t.edgeLt side) (t.chain side s).length (t.chain side s))
  chainReverse : t'.chain side.reverse = t.chain side.reverse
  same : SameStates t t'
  sound : t'.Sound

theorem Sound.setChain (sound : t.Sound) (perm : es.Perm (t.chain side s)) : (t.setChain side s es).Sound := by
  have member : ∀ {p e}, e ∈ update (t.chain side) s es p ↔
      t.Live e ∧ t.edgeEnd side e = p := by
    intro p e
    by_cases here : p = s
    · rw [here, update_self, perm.mem_iff]
      exact sound.chain
    · rw [update_of_ne here]
      exact sound.chain
  have nodup : ∀ p, (update (t.chain side) s es p).Nodup := by
    intro p
    by_cases here : p = s
    · rw [here, update_self]
      exact perm.nodup_iff.mpr (sound.chainNodup side s)
    · rw [update_of_ne here]
      exact sound.chainNodup side p
  cases side with
  | src =>
    exact
      { src := member, dest := sound.dest, srcNodup := nodup, destNodup := sound.destNodup
        srcAllocated := sound.srcAllocated, destAllocated := sound.destAllocated
        freeEdges := sound.freeEdges, freeStates := sound.freeStates, index := sound.index }
  | dest =>
    exact
      { src := sound.src, dest := member, srcNodup := sound.srcNodup, destNodup := nodup
        srcAllocated := sound.srcAllocated, destAllocated := sound.destAllocated
        freeEdges := sound.freeEdges, freeStates := sound.freeStates, index := sound.index }

theorem Sound.sortEdges (sound : t.Sound) (side : Side) (s : NfaState) : SortsEdges t side s (t.sortEdges side s) := by
  have perm := Sorting.mergeSort_perm (t.edgeLt side) (t.chain side s).length (t.chain side s)
  have sorted : (t.setChain side s _).Sound := sound.setChain perm
  cases side with
  | src | dest =>
    exact
      { live := fun _ => Iff.rfl, edgeSrc := rfl, edgeDest := rfl, edgeExpr := rfl, chain := rfl
        chainReverse := rfl, same := ⟨rfl, rfl, rfl, rfl⟩, sound := sorted }

theorem SortsEdges.edgeEnd (sorts : SortsEdges t side s t') (other : Side) : t'.edgeEnd other = t.edgeEnd other := by
  cases other with
  | src => exact sorts.edgeSrc
  | dest => exact sorts.edgeDest

/-- The edges that the loop removes. -/
def repeated (t : Tables) (side : Side) (e : NfaEdge) : List NfaEdge → List NfaEdge
  | [] => []
  | next :: rest =>
    if t.Identical side e next then next :: t.repeated side e rest else t.repeated side next rest

theorem repeated_sublist (t : Tables) (side : Side) (e : NfaEdge) (rest : List NfaEdge) :
    (t.repeated side e rest).Sublist rest := by
  induction rest generalizing e with
  | nil => exact List.Sublist.refl _
  | cons next rest ih =>
    unfold repeated
    split
    · exact (ih e).cons_cons next
    · exact (ih next).cons next

theorem repeated_twin {rest : List NfaEdge} (nodup : (e :: rest).Nodup) (member : e' ∈ t.repeated side e rest) :
    ∃ kept, kept ∈ e :: rest ∧ kept ∉ t.repeated side e rest ∧ t.Identical side kept e' := by
  induction rest generalizing e with
  | nil => exact absurd member List.not_mem_nil
  | cons next rest ih =>
    have first : e ∉ next :: rest := (List.nodup_cons.mp nodup).1
    have first' : e ∉ rest := fun inside => first (List.mem_cons_of_mem _ inside)
    have rest' := (List.nodup_cons.mp nodup).2
    unfold repeated at member ⊢
    split at member
    · next same =>
      rw [if_pos same]
      rcases List.mem_cons.mp member with rfl | member
      · refine ⟨e, List.mem_cons_self, fun inside => ?_, same⟩
        rcases List.mem_cons.mp inside with rfl | inside
        · exact first List.mem_cons_self
        · exact first' ((repeated_sublist t side e rest).subset inside)
      obtain ⟨kept, inside, stays, twin⟩ := ih (List.nodup_cons.mpr ⟨first', (List.nodup_cons.mp rest').2⟩) member
      rcases List.mem_cons.mp inside with rfl | inside
      · refine ⟨kept, List.mem_cons_self, fun removed => ?_, twin⟩
        rcases List.mem_cons.mp removed with rfl | removed
        · exact first List.mem_cons_self
        · exact stays removed
      · refine ⟨kept, List.mem_cons_of_mem _ (List.mem_cons_of_mem _ inside), fun removed => ?_, twin⟩
        rcases List.mem_cons.mp removed with rfl | removed
        · exact (List.nodup_cons.mp rest').1 inside
        · exact stays removed
    · next different =>
      rw [if_neg different]
      obtain ⟨kept, inside, stays, twin⟩ := ih rest' member
      exact ⟨kept, List.mem_cons_of_mem _ inside, stays, twin⟩

theorem removeRepeated_eq {rest : List NfaEdge} {t₀ : Tables} (sound : t.Sound)
    (nodup : rest.Nodup) (live : ∀ e ∈ rest, t.Live e) (ends : t.edgeEnd side.reverse = t₀.edgeEnd side.reverse)
    (exprs : t.edgeExpr = t₀.edgeExpr) :
    removeRepeated side e rest t = (t₀.repeated side e rest).foldlM removeEdge t := by
  induction rest generalizing e t with
  | nil => rfl
  | cons next rest ih =>
    have same : t.Identical side e next ↔ t₀.Identical side e next := by
      unfold Identical
      rw [ends, exprs]
    obtain ⟨outside, nodup'⟩ := List.nodup_cons.mp nodup
    unfold removeRepeated repeated
    by_cases identical : t₀.Identical side e next
    · rw [if_pos (same.mpr identical), if_pos identical, List.foldlM_cons]
      obtain ⟨t', run, removes⟩ := sound.removeEdge (live next List.mem_cons_self)
      rw [run]
      refine ih removes.sound nodup' (fun e' member => ?_) ?_ (removes.edgeExpr.trans exprs)
      · refine (removes.live e').mpr ⟨live e' (List.mem_cons_of_mem _ member), fun same => ?_⟩
        exact outside (List.mem_singleton.mp same ▸ member)
      · cases side with
        | src => exact removes.edgeDest.trans ends
        | dest => exact removes.edgeSrc.trans ends
    · rw [if_neg fun found => identical (same.mp found), if_neg identical]
      exact ih sound nodup' (fun e' member => live e' (List.mem_cons_of_mem _ member)) ends exprs

/-- What the removal of the identical edges of a state does: the edges ES go, and each one has an identical
edge that stays. -/
structure RemovesIdentical (t : Tables) (side : Side) (s : NfaState) (es : List NfaEdge) (t' : Tables) :
    Prop where
  live : ∀ e, t'.Live e ↔ t.Live e ∧ e ∉ es
  inside : ∀ e ∈ es, e ∈ t.chain side s
  twin : ∀ e ∈ es, ∃ kept, t'.Live kept ∧ kept ∈ t.chain side s ∧ t.Identical side kept e
  edgeSrc : t'.edgeSrc = t.edgeSrc
  edgeDest : t'.edgeDest = t.edgeDest
  edgeExpr : t'.edgeExpr = t.edgeExpr
  chainReverse : ∀ p, t'.chain side.reverse p = (t.chain side.reverse p).filter (· ∉ es)
  chainOther : ∀ p, p ≠ s → t'.chain side p = t.chain side p
  same : SameStates t t'
  sound : t'.Sound

/-- The edges that are removed: the repeated ones of the sorted chain. -/
def identicalEdges (t : Tables) (side : Side) (s : NfaState) : List NfaEdge :=
  match Sorting.mergeSort (t.edgeLt side) (t.chain side s).length (t.chain side s) with
  | [] => []
  | e :: rest => t.repeated side e rest

theorem RemovesEdges.chain (removes : RemovesEdges t es t') (side : Side) (s : NfaState) :
    t'.chain side s = (t.chain side s).filter (· ∉ es) := by
  cases side with
  | src => exact removes.srcEdges s
  | dest => exact removes.destEdges s

theorem Sound.removeIdenticalEdges (sound : t.Sound) (side : Side) (s : NfaState) :
    ∃ t', t.removeIdenticalEdges side s = .ok t' ∧ RemovesIdentical t side s (t.identicalEdges side s) t' := by
  have sorts := sound.sortEdges side s
  have perm := Sorting.mergeSort_perm (t.edgeLt side) (t.chain side s).length (t.chain side s)
  have chain : (t.sortEdges side s).chain side s =
      Sorting.mergeSort (t.edgeLt side) (t.chain side s).length (t.chain side s) := by
    rw [sorts.chain, update_self]
  have identical : ∀ e e', (t.sortEdges side s).Identical side e e' ↔ t.Identical side e e' := by
    intro e e'
    unfold Identical
    rw [sorts.edgeEnd, sorts.edgeExpr]
  unfold Tables.removeIdenticalEdges identicalEdges
  simp only [chain]
  cases sorted : Sorting.mergeSort (t.edgeLt side) (t.chain side s).length (t.chain side s) with
  | nil =>
    refine ⟨_, rfl, ?_⟩
    exact
      { live := fun e => by simp [sorts.live], inside := fun e member => absurd member List.not_mem_nil
        twin := fun e member => absurd member List.not_mem_nil
        edgeSrc := sorts.edgeSrc, edgeDest := sorts.edgeDest, edgeExpr := sorts.edgeExpr
        chainReverse := fun p => by simp [sorts.chainReverse]
        chainOther := fun p other => by rw [sorts.chain, update_of_ne other]
        same := sorts.same, sound := sorts.sound }
  | cons e rest =>
    rw [sorted] at perm
    have nodup : (e :: rest).Nodup := perm.nodup_iff.mpr (sound.chainNodup side s)
    have inside : ∀ e' ∈ e :: rest, e' ∈ t.chain side s := fun e' => perm.mem_iff.mp
    have live : ∀ e' ∈ e :: rest, t.Live e' := fun e' member => (sound.chain.mp (inside e' member)).1
    have sublist := repeated_sublist t side e rest
    obtain ⟨t', run, removes⟩ := sorts.sound.removeEdges (sublist.nodup (List.nodup_cons.mp nodup).2)
      fun e' member => (sorts.live e').mpr (live e' (List.mem_cons_of_mem _ (sublist.subset member)))
    refine ⟨t', ?_, ?_⟩
    · show removeRepeated side e rest _ = _
      rw [removeRepeated_eq sorts.sound (List.nodup_cons.mp nodup).2
        (fun e' member => (sorts.live e').mpr (live e' (List.mem_cons_of_mem _ member)))
        (sorts.edgeEnd _) sorts.edgeExpr]
      exact run
    · have stillLive : ∀ e', t'.Live e' ↔ t.Live e' ∧ e' ∉ t.repeated side e rest := by
        intro e'
        rw [removes.live, sorts.live]
      refine
        { live := stillLive
          inside := fun e' member => inside e' (List.mem_cons_of_mem _ (sublist.subset member))
          twin := ?_, edgeSrc := removes.edgeSrc.trans sorts.edgeSrc
          edgeDest := removes.edgeDest.trans sorts.edgeDest
          edgeExpr := removes.edgeExpr.trans sorts.edgeExpr, chainReverse := ?_, chainOther := ?_
          same := sorts.same.trans removes.same, sound := removes.sound }
      · intro e' member
        obtain ⟨kept, member', stays, twin⟩ := repeated_twin nodup member
        exact ⟨kept, (stillLive kept).mpr ⟨live kept member', stays⟩, inside kept member', twin⟩
      · intro p
        rw [removes.chain, sorts.chainReverse]
      · intro p other
        rw [removes.chain, sorts.chain, update_of_ne other]
        refine List.filter_eq_self.mpr fun e' member => ?_
        rw [decide_eq_true_iff]
        intro repeated
        have here := inside e' (List.mem_cons_of_mem _ (sublist.subset repeated))
        exact other ((sound.chain.mp member).2.symm.trans (sound.chain.mp here).2)

theorem RemovesIdentical.arc (removes : RemovesIdentical t side s es t') (sound : t.Sound) :
    t'.Arc p x q ↔ t.Arc p x q := by
  unfold Arc
  rw [removes.edgeSrc, removes.edgeDest, removes.edgeExpr]
  constructor
  · rintro ⟨e, live, ends⟩
    exact ⟨e, ((removes.live e).mp live).1, ends⟩
  rintro ⟨e, live, from', expr', to'⟩
  by_cases member : e ∈ es
  · obtain ⟨kept, live', inside, twin, sameExpr⟩ := removes.twin e member
    have here : t.edgeEnd side kept = t.edgeEnd side e :=
      (sound.chain.mp inside).2.trans (sound.chain.mp (removes.inside e member)).2.symm
    refine ⟨kept, live', ?_, sameExpr.trans expr', ?_⟩
    · cases side with
      | src => exact here.trans from'
      | dest => exact twin.trans from'
    · cases side with
      | src => exact twin.trans to'
      | dest => exact here.trans to'
  · exact ⟨e, (removes.live e).mpr ⟨live, member⟩, from', expr', to'⟩

end Tables

end Ghdl.Psl
