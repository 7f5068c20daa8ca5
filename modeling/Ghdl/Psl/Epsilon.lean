import Ghdl.Psl.NfasUtils

/-!
# Epsilon edges

`Duplicate_Src_Edges`, `Duplicate_Dest_Edges`, `Remove_Epsilon_Edge` and `Remove_Epsilon` of `psl-build`.
A construction adds epsilon edges and removes them one after the other. The removal of the edge from S to D
moves the edges to S when no other edge leaves S, moves the edges from D when no other edge enters D, and
duplicates both kinds of edges otherwise.
-/

namespace Ghdl.Psl

open Automata Function

namespace Tables

/-- `Duplicate_Src_Edges`: the edges from A are duplicated with the source B. The chain of A is not
changed by the edges that are added, as A is not B. -/
def duplicateSrcEdges (t : Tables) (a b : NfaState) : Outcome Tables :=
  if a = b then .error .assertion
  else .ok ((t.srcEdges a).foldl (fun t e =>
    match t.edgeExpr e with
    | none => t
    | some expr => (t.addEdge b (t.edgeDest e) (some expr)).2) t)

/-- `Duplicate_Dest_Edges`: the edges to A are duplicated with the destination B. -/
def duplicateDestEdges (t : Tables) (a b : NfaState) : Outcome Tables :=
  if a = b then .error .assertion
  else .ok ((t.destEdges a).foldl (fun t e =>
    match t.edgeExpr e with
    | none => t
    | some expr => (t.addEdge (t.edgeSrc e) b (some expr)).2) t)

/-- `Remove_Epsilon_Edge`. -/
def removeEpsilonEdge (t : Tables) (n : Nfa) (s d : NfaState) : Outcome (Nfa × Tables) :=
  if t.srcEdges s = [] then do
    -- No edge from S.
    let t := t.redestEdges s d
    let (n, t) ← t.removeUnconnectedState n s
    return ({ n with start := if n.start = s then d else n.start }, t)
  else if t.destEdges d = [] then do
    -- No edge to D.
    let t := t.resourceEdges d s
    let (n, t) ← t.removeUnconnectedState n d
    return ({ n with final := if n.final = d then s else n.final }, t)
  else do
    let t ← t.duplicateDestEdges s d
    let t ← t.duplicateSrcEdges d s
    let t ← t.removeIdenticalSrcEdges s
    return (n, t)

/-- `Remove_Epsilon`. -/
def removeEpsilon (t : Tables) (n : Nfa) (e : NfaEdge) : Outcome (Nfa × Tables) := do
  let s := t.edgeSrc e
  let d := t.edgeDest e
  let t ← t.removeEdge e
  t.removeEpsilonEdge n s d

variable {t t' t'' : Tables} {n n' : Nfa} {s d p q : NfaState} {e e' : NfaEdge} {es : List NfaEdge}
  {expr x : Option BoolNode}

/-- Edges with an expression are added, the others stay. -/
structure Grows (t t' : Tables) : Prop where
  keeps : ∀ e, t.Live e → t'.Live e ∧ t'.edgeSrc e = t.edgeSrc e ∧ t'.edgeDest e = t.edgeDest e ∧
    t'.edgeExpr e = t.edgeExpr e
  loud : ∀ e, t'.Live e → t'.edgeExpr e = none → t.Live e
  same : SameStates t t'
  sound : t'.Sound

theorem Grows.refl (sound : t.Sound) : Grows t t :=
  ⟨fun _ live => ⟨live, rfl, rfl, rfl⟩, fun _ live _ => live, SameStates.refl t, sound⟩

theorem Grows.trans (first : Grows t t') (second : Grows t' t'') : Grows t t'' where
  keeps e live := by
    obtain ⟨live', from', to', expr'⟩ := first.keeps e live
    obtain ⟨live'', from'', to'', expr''⟩ := second.keeps e live'
    exact ⟨live'', from''.trans from', to''.trans to', expr''.trans expr'⟩
  loud e live null := by
    have live' := second.loud e live null
    have null' := (second.keeps e live').2.2.2.symm.trans null
    exact first.loud e live' null'
  same := first.same.trans second.same
  sound := second.sound

theorem AddsEdge.grows {b : BoolNode} (adds : AddsEdge t s d (some b) e t') : Grows t t' where
  keeps e' live := by
    have old : e' ≠ e := fun same => adds.fresh (same ▸ live)
    refine ⟨(adds.live e').mpr (.inl live), ?_, ?_, ?_⟩
    · rw [adds.edgeSrc, update_of_ne old]
    · rw [adds.edgeDest, update_of_ne old]
    · rw [adds.edgeExpr, update_of_ne old]
  loud e' live null := by
    rcases (adds.live e').mp live with live | rfl
    · exact live
    · rw [adds.edgeExpr, update_self] at null
      exact absurd null (Option.some_ne_none b)
  same := adds.same
  sound := adds.sound

theorem duplicate_spec (ends : Tables → NfaEdge → NfaState × NfaState)
    (frame : ∀ {t t' : Tables}, Grows t t' → ∀ e, t.Live e → ends t' e = ends t e)
    (used : ∀ {t : Tables}, t.Sound → ∀ e, t.Live e → t.Allocated s →
      t.Allocated (ends t e).1 ∧ t.Allocated (ends t e).2)
    (sound : t.Sound) (known : t.Allocated s) (live : ∀ e ∈ es, t.Live e) :
    let t' := es.foldl (fun t e =>
      match t.edgeExpr e with
      | none => t
      | some expr => (t.addEdge (ends t e).1 (ends t e).2 (some expr)).2) t
    Grows t t' ∧ ∀ p x q, t'.Arc p x q ↔ t.Arc p x q ∨ ∃ e ∈ es, x ≠ none ∧ t.edgeExpr e = x ∧ ends t e = (p, q) := by
  induction es generalizing t with
  | nil => exact ⟨Grows.refl sound, fun p x q => by simp⟩
  | cons e es ih =>
    have here := live e List.mem_cons_self
    have there : ∀ e' ∈ es, t.Live e' := fun e' member => live e' (List.mem_cons_of_mem _ member)
    simp only [List.foldl_cons]
    cases null : t.edgeExpr e with
    | none =>
      obtain ⟨grows, arc⟩ := ih sound known there
      refine ⟨grows, fun p x q => (arc p x q).trans ?_⟩
      refine or_congr Iff.rfl ⟨?_, ?_⟩
      · rintro ⟨e', member, rest⟩
        exact ⟨e', List.mem_cons_of_mem _ member, rest⟩
      rintro ⟨e', member, loud, expr, rest⟩
      rcases List.mem_cons.mp member with rfl | member
      · exact absurd (expr.symm.trans null) loud
      · exact ⟨e', member, loud, expr, rest⟩
    | some b =>
      obtain ⟨fromUsed, toUsed⟩ := used sound e here known
      have adds := sound.addEdge fromUsed toUsed (some b)
      have first := adds.grows
      obtain ⟨grows, arc⟩ := ih adds.sound (first.same.allocated.mpr known)
        fun e' member => (first.keeps e' (there e' member)).1
      refine ⟨first.trans grows, fun p x q => ?_⟩
      rw [arc, adds.arc, or_assoc]
      refine or_congr Iff.rfl ⟨?_, ?_⟩
      · rintro (⟨rfl, rfl, rfl⟩ | ⟨e', member, loud, expr, rest⟩)
        · exact ⟨e, List.mem_cons_self, Option.some_ne_none b, null, rfl⟩
        · refine ⟨e', List.mem_cons_of_mem _ member, loud, ?_, ?_⟩
          · rw [← (first.keeps e' (there e' member)).2.2.2]
            exact expr
          · rw [← frame first e' (there e' member)]
            exact rest
      · rintro ⟨e', member, loud, expr, rest⟩
        rcases List.mem_cons.mp member with rfl | member
        · refine .inl ⟨?_, expr.symm.trans null, ?_⟩
          · rw [rest]
          · rw [rest]
        refine .inr ⟨e', member, loud, ?_, ?_⟩
        · rw [(first.keeps e' (there e' member)).2.2.2]
          exact expr
        · rw [frame first e' (there e' member)]
          exact rest

theorem Sound.duplicateSrcEdges (sound : t.Sound) (different : d ≠ s) (used : t.Allocated s) :
    ∃ t', t.duplicateSrcEdges d s = .ok t' ∧ Grows t t' ∧ ∀ p x q, t'.Arc p x q ↔ Forked t.Arc s d p x q := by
  obtain ⟨grows, arc⟩ := duplicate_spec (fun t e => (s, t.edgeDest e))
    (fun grows e live => by rw [(grows.keeps e live).2.2.1])
    (fun sound e live known => ⟨known, sound.destAllocated live⟩) sound used
    (fun e (member : e ∈ t.srcEdges d) => sound.live_of_src member)
  refine ⟨_, if_neg different, grows, fun p x q => (arc p x q).trans (or_congr Iff.rfl ⟨?_, ?_⟩)⟩
  · rintro ⟨e, member, loud, expr, ends⟩
    obtain ⟨rfl, rfl⟩ := Prod.mk.injEq .. ▸ ends
    obtain ⟨live, leaves⟩ := sound.src.mp member
    exact ⟨⟨e, live, leaves, expr, rfl⟩, loud, rfl⟩
  · rintro ⟨⟨e, live, leaves, expr, enters⟩, loud, rfl⟩
    exact ⟨e, sound.src.mpr ⟨live, leaves⟩, loud, expr, by rw [enters]⟩

theorem Sound.duplicateDestEdges (sound : t.Sound) (different : s ≠ d) (used : t.Allocated d) :
    ∃ t', t.duplicateDestEdges s d = .ok t' ∧ Grows t t' ∧ ∀ p x q, t'.Arc p x q ↔ Duplicated t.Arc s d p x q := by
  obtain ⟨grows, arc⟩ := duplicate_spec (fun t e => (t.edgeSrc e, d))
    (fun grows e live => by rw [(grows.keeps e live).2.1])
    (fun sound e live known => ⟨sound.srcAllocated live, known⟩) sound used
    (fun e (member : e ∈ t.destEdges s) => sound.live_of_dest member)
  refine ⟨_, if_neg different, grows, fun p x q => (arc p x q).trans (or_congr Iff.rfl ⟨?_, ?_⟩)⟩
  · rintro ⟨e, member, loud, expr, ends⟩
    obtain ⟨rfl, rfl⟩ := Prod.mk.injEq .. ▸ ends
    obtain ⟨live, enters⟩ := sound.dest.mp member
    exact ⟨⟨e, live, rfl, expr, enters⟩, loud, rfl⟩
  · rintro ⟨⟨e, live, leaves, expr, enters⟩, loud, rfl⟩
    exact ⟨e, sound.dest.mpr ⟨live, enters⟩, loud, expr, by rw [leaves]⟩

/-- Two epsilon edges do not have the same ends. -/
def LoneEpsilons (t : Tables) : Prop :=
  ∀ {e e'}, t.Live e → t.Live e' → t.edgeExpr e = none → t.edgeExpr e' = none →
    t.edgeSrc e = t.edgeSrc e' → t.edgeDest e = t.edgeDest e' → e = e'

/-- Where the epsilon edges are afterwards. -/
def MovesEpsilons (t t' : Tables) (src dest : NfaState → NfaState) : Prop :=
  ∀ e, t.Live e → t.edgeExpr e = none → t'.Live e ∧ t'.edgeExpr e = none ∧
    t'.edgeSrc e = src (t.edgeSrc e) ∧ t'.edgeDest e = dest (t.edgeDest e)

/-- What `Remove_Epsilon_Edge` does, one constructor for each branch. -/
inductive RemovesEpsilonEdge (t : Tables) (n : Nfa) (s d : NfaState) (n' : Nfa) (t' : Tables) : Prop
  /-- The edges to S lead to D. -/
  | redirected (alone : ∀ x q, ¬t.Arc s x q)
      (arc : ∀ p x q, t'.Arc p x q ↔ Redirected t.Arc s d p x q)
      (allocated : ∀ p, t'.Allocated p ↔ t.Allocated p ∧ p ≠ s)
      (nfa : n' = { n with
        states := n.states.erase s, start := if n.start = s then d else n.start })
      (epsilons : MovesEpsilons t t' id fun q => if q = s then d else q)
  /-- The edges from D leave S. -/
  | resourced (leaves : ∃ x q, t.Arc s x q) (alone : ∀ p x, ¬t.Arc p x d)
      (arc : ∀ p x q, t'.Arc p x q ↔ Resourced t.Arc s d p x q)
      (allocated : ∀ p, t'.Allocated p ↔ t.Allocated p ∧ p ≠ d)
      (nfa : n' = { n with
        states := n.states.erase d, final := if n.final = d then s else n.final })
      (epsilons : MovesEpsilons t t' (fun p => if p = d then s else p) id)
  /-- Both kinds of edges are duplicated. -/
  | duplicated (leaves : ∃ x q, t.Arc s x q) (enters : ∃ p x, t.Arc p x d)
      (arc : ∀ p x q, t'.Arc p x q ↔ Forked (Duplicated t.Arc s d) s d p x q)
      (allocated : ∀ p, t'.Allocated p ↔ t.Allocated p) (nfa : n' = n)
      (epsilons : MovesEpsilons t t' id id)

theorem Sound.src_ne_nil (sound : t.Sound) (chain : t.srcEdges s ≠ []) : ∃ x q, t.Arc s x q := by
  by_contra none
  refine chain (sound.src_nil_iff.mpr fun x q arc => none ⟨x, q, arc⟩)

theorem Sound.dest_ne_nil (sound : t.Sound) (chain : t.destEdges s ≠ []) : ∃ p x, t.Arc p x s := by
  by_contra none
  refine chain (sound.dest_nil_iff.mpr fun p x arc => none ⟨p, x, arc⟩)

/-- No branch of `Remove_Epsilon_Edge` fails. -/
theorem Sound.removeEpsilonEdge (sound : t.Sound) (n : Nfa) (different : s ≠ d)
    (fromUsed : t.Allocated s) (toUsed : t.Allocated d) (lone : t.LoneEpsilons) :
    ∃ n' t', t.removeEpsilonEdge n s d = .ok (n', t') ∧ t'.Sound ∧
      (∀ e, t'.Live e → t'.edgeExpr e = none → t.Live e ∧ t.edgeExpr e = none) ∧ RemovesEpsilonEdge t n s d n' t' := by
  unfold Tables.removeEpsilonEdge
  by_cases noSrc : t.srcEdges s = []
  · have alone := sound.src_nil_iff.mp noSrc
    have moves := sound.redestEdges (s := s) toUsed
    have arc : ∀ p x q, (t.redestEdges s d).Arc p x q ↔ Redirected t.Arc s d p x q :=
      fun p x q => redestEdges_arc sound
    obtain ⟨n', t', run, removes, -, -⟩ := moves.sound.removeUnconnectedState n
      (moves.same.allocated.mpr fromUsed)
      (fun x q taken => by
        rcases (arc _ _ _).mp taken with ⟨taken, -⟩ | ⟨taken, -⟩
        · exact alone _ _ taken
        · exact alone _ _ taken)
      (fun p x taken => by
        rcases (arc _ _ _).mp taken with ⟨-, other⟩ | ⟨-, same⟩
        · exact other rfl
        · exact different same)
    refine ⟨{ n' with start := if n'.start = s then d else n'.start }, t', ?_, removes.sound, ?_, ?_⟩
    · rw [if_pos noSrc]
      simp only [run, bind, Except.bind, pure, Except.pure]
    · intro e live null
      rw [removes.edgeExpr] at null
      exact ⟨((removes.live e).mp live).1, null⟩
    · refine .redirected alone (fun p x q => ?_) (fun p => ?_) ?_ ?_
      · rw [removes.arc, arc]
        refine ⟨And.left, fun taken => ⟨taken, ?_, ?_⟩⟩
        · rintro rfl
          rcases taken with ⟨taken, -⟩ | ⟨taken, -⟩
          all_goals exact alone _ _ taken
        rintro rfl
        rcases taken with ⟨-, other⟩ | ⟨-, same⟩
        · exact other rfl
        · exact different same
      · rw [removes.allocated, moves.same.allocated]
      · rw [removes.nfa]
      · intro e live null
        have dest := redestEdges_dest (s := s) (d := d) sound live
        refine ⟨(removes.live e).mpr ⟨live, ?_, ?_⟩, ?_, ?_, ?_⟩
        · intro leaves
          exact alone _ _ ⟨e, live, leaves, rfl, rfl⟩
        · rw [dest]
          by_cases enters : t.edgeDest e = s
          · rw [if_pos enters]
            exact different.symm
          · rw [if_neg enters]
            exact enters
        · rw [removes.edgeExpr]
          exact null
        · rw [removes.edgeSrc]
          rfl
        · rw [removes.edgeDest]
          exact dest
  rw [if_neg noSrc]
  have leaves := sound.src_ne_nil noSrc
  by_cases noDest : t.destEdges d = []
  · have alone := sound.dest_nil_iff.mp noDest
    have moves := sound.resourceEdges (s := d) fromUsed
    have arc : ∀ p x q, (t.resourceEdges d s).Arc p x q ↔ Resourced t.Arc s d p x q :=
      fun p x q => resourceEdges_arc sound
    obtain ⟨n', t', run, removes, -, -⟩ := moves.sound.removeUnconnectedState n
      (moves.same.allocated.mpr toUsed)
      (fun x q taken => by
        rcases (arc _ _ _).mp taken with ⟨-, other⟩ | ⟨-, same⟩
        · exact other rfl
        · exact different same.symm)
      (fun p x taken => by
        rcases (arc _ _ _).mp taken with ⟨taken, -⟩ | ⟨taken, -⟩
        · exact alone _ _ taken
        · exact alone _ _ taken)
    refine ⟨{ n' with final := if n'.final = d then s else n'.final }, t', ?_, removes.sound, ?_, ?_⟩
    · rw [if_pos noDest]
      simp only [run, bind, Except.bind, pure, Except.pure]
    · intro e live null
      rw [removes.edgeExpr] at null
      exact ⟨((removes.live e).mp live).1, null⟩
    · refine .resourced leaves alone (fun p x q => ?_) (fun p => ?_) ?_ ?_
      · rw [removes.arc, arc]
        refine ⟨And.left, fun taken => ⟨taken, ?_, ?_⟩⟩
        · rintro rfl
          rcases taken with ⟨-, other⟩ | ⟨-, same⟩
          · exact other rfl
          · exact different same.symm
        · rintro rfl
          rcases taken with ⟨taken, -⟩ | ⟨taken, -⟩
          all_goals exact alone _ _ taken
      · rw [removes.allocated, moves.same.allocated]
      · rw [removes.nfa]
      · intro e live null
        have src := resourceEdges_src (s := d) (d := s) sound live
        refine ⟨(removes.live e).mpr ⟨live, ?_, ?_⟩, ?_, ?_, ?_⟩
        · rw [src]
          by_cases leaves : t.edgeSrc e = d
          · rw [if_pos leaves]
            exact different
          · rw [if_neg leaves]
            exact leaves
        · intro enters
          exact alone _ _ ⟨e, live, rfl, rfl, enters⟩
        · rw [removes.edgeExpr]
          exact null
        · rw [removes.edgeSrc]
          exact src
        · rw [removes.edgeDest]
          rfl
  rw [if_neg noDest]
  obtain ⟨t₁, run₁, grows₁, arc₁⟩ := sound.duplicateDestEdges different toUsed
  obtain ⟨t₂, run₂, grows₂, arc₂⟩ := grows₁.sound.duplicateSrcEdges different.symm
    (grows₁.same.allocated.mpr fromUsed)
  obtain ⟨t₃, run₃, removes⟩ := grows₂.sound.removeIdenticalEdges .src s
  have grows := grows₁.trans grows₂
  refine ⟨n, t₃, ?_, removes.sound, ?_, ?_⟩
  · simp only [run₁, run₂, removeIdenticalSrcEdges, run₃, bind, Except.bind, pure, Except.pure]
  · intro e live null
    rw [removes.edgeExpr] at null
    have old := grows.loud e ((removes.live e).mp live).1 null
    exact ⟨old, (grows.keeps e old).2.2.2.symm.trans null⟩
  · refine .duplicated leaves (sound.dest_ne_nil noDest) (fun p x q => ?_) (fun p => ?_) rfl ?_
    · rw [removes.arc grows₂.sound, arc₂]
      unfold Forked
      rw [arc₁, arc₁]
    · rw [removes.same.allocated, grows.same.allocated]
    · intro e live null
      obtain ⟨live', from', to', expr'⟩ := grows.keeps e live
      refine ⟨(removes.live e).mpr ⟨live', fun repeated => ?_⟩, ?_, ?_, ?_⟩
      · obtain ⟨kept, keptLive, inside, twinEnd, twinExpr⟩ := removes.twin e repeated
        have keptLive' := ((removes.live kept).mp keptLive).1
        have keptNull : t₂.edgeExpr kept = none := twinExpr.trans (expr'.trans null)
        have keptOld := grows.loud kept keptLive' keptNull
        obtain ⟨-, keptFrom, keptTo, keptExpr⟩ := grows.keeps kept keptOld
        have sameSrc : t₂.edgeSrc kept = t₂.edgeSrc e :=
          (grows₂.sound.src.mp inside).2.trans (grows₂.sound.src.mp (removes.inside e repeated)).2.symm
        have same : kept = e := lone keptOld live (keptExpr.symm.trans keptNull) null
          (keptFrom.symm.trans (sameSrc.trans from')) (keptTo.symm.trans (twinEnd.trans to'))
        exact ((removes.live kept).mp keptLive).2 (same ▸ repeated)
      · rw [removes.edgeExpr]
        exact expr'.trans null
      · rw [removes.edgeSrc]
        exact from'
      · rw [removes.edgeDest]
        exact to'

end Tables

end Ghdl.Psl
