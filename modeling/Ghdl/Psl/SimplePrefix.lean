import Ghdl.Automata.Parallel
import Ghdl.Psl.Determinize
import Ghdl.Psl.Ownership
import Ghdl.Psl.Unreachable

/-!
# Simple prefixes

`Remove_Simple_Prefix` removes an edge when an edge from the start state has the same expression and the
same destination. That keeps the positions where the final state is reached only where the start state is
active when the removed edge would be taken.
-/

namespace Ghdl.Psl

open Automata

namespace Tables

variable {t t' t₁ : Tables} {n n' : Nfa} {s p q : NfaState} {e tStart : NfaEdge} {x : Option BoolNode}
  {es ds done rest : List NfaEdge} {clean : Bool} {fuel : Nat}

/-- The edges have the same expression and the same destination. -/
def Abreast (t : Tables) (e e' : NfaEdge) : Prop :=
  t.edgeExpr e = t.edgeExpr e' ∧ t.edgeDest e = t.edgeDest e'

instance (t : Tables) : DecidableRel t.Abreast := fun _ _ => inferInstanceAs (Decidable (_ ∧ _))

/-- The inner loop removes the edges with the expression, but not `T_Start`. -/
theorem Sound.removeParallel (sound : t.Sound) (nodup : ds.Nodup) (live : ∀ e ∈ ds, t.Live e) :
    ∃ t', ds.foldlM (removeParallel tStart x) (t, clean) =
        .ok (t', clean || !(ds.filter fun e => e ≠ tStart ∧ t.edgeExpr e = x).isEmpty) ∧
      RemovesEdges t (ds.filter fun e => e ≠ tStart ∧ t.edgeExpr e = x) t' := by
  induction ds generalizing t clean with
  | nil => exact ⟨t, by simp [pure, Except.pure], .nil sound⟩
  | cons e ds ih =>
    obtain ⟨outside, nodup⟩ := List.nodup_cons.mp nodup
    rw [List.foldlM_cons]
    by_cases taken : e ≠ tStart ∧ t.edgeExpr e = x
    · obtain ⟨t₁, run₁, first⟩ := sound.removeEdge (live e List.mem_cons_self)
      have step : Tables.removeParallel tStart x (t, clean) e = .ok (t₁, true) := by
        unfold Tables.removeParallel
        rw [if_pos taken]
        dsimp only
        rw [run₁]
        rfl
      have later : ∀ e' ∈ ds, t₁.Live e' := fun e' member =>
        (first.live e').mpr ⟨live e' (List.mem_cons_of_mem _ member), fun same => outside
          (List.mem_singleton.mp same ▸ member)⟩
      obtain ⟨t', run, removes⟩ := @ih t₁ true first.sound nodup later
      have sameEdges : (ds.filter fun e => e ≠ tStart ∧ t₁.edgeExpr e = x) =
          ds.filter fun e => e ≠ tStart ∧ t.edgeExpr e = x := by rw [first.edgeExpr]
      rw [sameEdges] at removes
      refine ⟨t', ?_, ?_⟩
      · rw [step]
        refine run.trans ?_
        rw [List.filter_cons_of_pos (by simpa using taken)]
        simp
      · rw [List.filter_cons_of_pos (by simpa using taken)]
        exact first.trans removes
    · have step : Tables.removeParallel tStart x (t, clean) e = .ok (t, clean) := if_neg taken
      obtain ⟨t', run, removes⟩ := @ih t clean sound nodup fun e' member => live e' (List.mem_cons_of_mem _ member)
      refine ⟨t', ?_, ?_⟩
      · rw [step, List.filter_cons_of_neg (by simpa using taken)]
        exact run
      · rwa [List.filter_cons_of_neg (by simpa using taken)]

/-- What the outer loop does to the edges. -/
structure RemovesParallels (t : Tables) (s : NfaState) (es : List NfaEdge) (t' : Tables) : Prop where
  removes : RemovesEdges t es t'
  live : ∀ e ∈ es, t.Live e
  /-- An edge from the state is left for each edge that is removed. -/
  beside : ∀ e ∈ es, ∃ e', t'.Live e' ∧ t.edgeSrc e' = s ∧ t.Abreast e' e
  /-- No edge is left abreast of another one from the state. -/
  alone : ∀ e e', t'.Live e → t'.Live e' → t.edgeSrc e = s → t.Abreast e e' → e' = e

/-- The edge after another one in the chain of its source. -/
theorem nextSrcEdge_eq (chain : t.srcEdges (t.edgeSrc e) = done ++ e :: rest) (outside : e ∉ done) :
    t.nextSrcEdge e = rest.head? := by
  unfold nextSrcEdge
  rw [chain, List.dropWhile_append_of_pos, List.dropWhile_cons_of_neg (by simp), List.tail_cons]
  intro e' member
  have other : e' ≠ e := fun same => outside (same ▸ member)
  simpa using other

theorem Sound.removeParallels (sound : t.Sound) (chain : t.srcEdges s = done ++ rest)
    (handled : ∀ e ∈ done, ∀ e', t.Live e' → t.Abreast e e' → e' = e) (enough : rest.length ≤ fuel) :
    ∃ es t' clean', removeParallels fuel rest.head? (t, clean) = .ok (t', clean') ∧
      RemovesParallels t s es t' ∧ (clean' = false → clean = false ∧ es = []) := by
  induction fuel generalizing t done rest clean with
  | zero =>
    have nothing := List.eq_nil_of_length_eq_zero (Nat.le_zero.mp enough)
    subst nothing
    refine ⟨[], t, clean, rfl, ⟨.nil sound, by simp, by simp, ?_⟩, fun same => ⟨same, rfl⟩⟩
    intro e e' live live' leaves abreast
    have member : e ∈ done := by simpa [chain] using sound.src.mpr ⟨live, leaves⟩
    exact handled e member e' live' abreast
  | succ fuel ih =>
    cases rest with
    | nil =>
      refine ⟨[], t, clean, rfl, ⟨.nil sound, by simp, by simp, ?_⟩, fun same => ⟨same, rfl⟩⟩
      intro e e' live live' leaves abreast
      have member : e ∈ done := by simpa [chain] using sound.src.mpr ⟨live, leaves⟩
      exact handled e member e' live' abreast
    | cons e rest =>
      obtain ⟨live, leaves⟩ := sound.src.mp (chain ▸ List.mem_append_right _ List.mem_cons_self)
      obtain ⟨t₁, run₁, first⟩ := @Sound.removeParallel t e (t.edgeExpr e)
        (t.destEdges (t.edgeDest e)) clean sound (sound.destNodup _) fun e' member =>
          sound.live_of_dest member
      generalize removed : (t.destEdges (t.edgeDest e)).filter
        (fun e' => e' ≠ e ∧ t.edgeExpr e' = t.edgeExpr e) = parallels at run₁ first
      have mem_parallels : ∀ {e'}, e' ∈ parallels ↔ t.Live e' ∧ t.Abreast e e' ∧ e' ≠ e := by
        intro e'
        rw [← removed, List.mem_filter, decide_eq_true_iff, sound.dest]
        constructor
        · rintro ⟨⟨live', enters⟩, other, expr⟩
          exact ⟨live', ⟨expr.symm, enters.symm⟩, other⟩
        · rintro ⟨live', ⟨expr, enters⟩, other⟩
          exact ⟨⟨live', enters.symm⟩, other, expr.symm⟩
      have stays : e ∉ parallels := fun member => (mem_parallels.mp member).2.2 rfl
      have chain₁ : t₁.srcEdges s = (done.filter (· ∉ parallels)) ++ e :: rest.filter (· ∉ parallels) := by
        rw [first.srcEdges, chain, List.filter_append, List.filter_cons_of_pos (by simpa using stays)]
      have outside : e ∉ done.filter (· ∉ parallels) := by
        intro member
        have nodup := sound.srcNodup s
        rw [chain] at nodup
        exact (List.nodup_append.mp nodup).2.2 e (List.mem_of_mem_filter member) e List.mem_cons_self rfl
      have alive : ∀ {e'}, t₁.Live e' → t.Live e' := fun live' => ((first.live _).mp live').1
      have same : ∀ {e e'}, t₁.Abreast e e' ↔ t.Abreast e e' := by
        intro e e'
        unfold Abreast
        rw [first.edgeExpr, first.edgeDest]
      have handled₁ : ∀ e₁ ∈ done.filter (· ∉ parallels) ++ [e], ∀ e', t₁.Live e' →
          t₁.Abreast e₁ e' → e' = e₁ := by
        intro e₁ member e' live' abreast
        rcases List.mem_append.mp member with member | member
        · exact handled e₁ (List.mem_of_mem_filter member) e' (alive live') (same.mp abreast)
        · obtain rfl := List.mem_singleton.mp member
          by_contra other
          exact ((first.live e').mp live').2 (mem_parallels.mpr ⟨alive live', same.mp abreast, other⟩)
      have shorter : (rest.filter (· ∉ parallels)).length ≤ fuel :=
        (List.length_filter_le _ _).trans (Nat.le_of_succ_le_succ enough)
      have chain₁' : t₁.srcEdges s =
          (done.filter (· ∉ parallels) ++ [e]) ++ rest.filter (· ∉ parallels) := by
        rw [chain₁, List.append_assoc]
        rfl
      obtain ⟨es, t', clean', run, removes, flag⟩ :=
        @ih t₁ (done.filter (· ∉ parallels) ++ [e]) (rest.filter (· ∉ parallels))
          (clean || !parallels.isEmpty) first.sound chain₁' handled₁ shorter
      have next : t₁.nextSrcEdge e = (rest.filter (· ∉ parallels)).head? := by
        apply nextSrcEdge_eq _ outside
        rw [first.edgeSrc, leaves]
        exact chain₁
      refine ⟨parallels ++ es, t', clean', ?_, ?_, fun quiet => ?_⟩
      · rw [List.head?_cons]
        unfold Tables.removeParallels
        dsimp only
        rw [run₁]
        show Tables.removeParallels fuel (t₁.nextSrcEdge e) _ = _
        rw [next]
        exact run
      · -- The edge E itself is never removed: no other edge is abreast of it any more.
        have kept : t'.Live e := by
          by_contra gone
          have live₁ : t₁.Live e := (first.live e).mpr ⟨live, stays⟩
          have member : e ∈ es := by
            by_contra other
            exact gone ((removes.removes.live e).mpr ⟨live₁, other⟩)
          obtain ⟨e', live', -, abreast⟩ := removes.beside e member
          have live₁' := ((removes.removes.live e').mp live').1
          have again := handled₁ e (by simp) e' live₁' ⟨abreast.1.symm, abreast.2.symm⟩
          exact gone (again ▸ live')
        refine ⟨first.trans removes.removes, ?_, ?_, ?_⟩
        · intro e' member
          rcases List.mem_append.mp member with member | member
          · exact (mem_parallels.mp member).1
          · exact alive (removes.live e' member)
        · intro e' member
          rcases List.mem_append.mp member with member | member
          · exact ⟨e, kept, leaves, (mem_parallels.mp member).2.1⟩
          · obtain ⟨e₁, live', leaves', abreast⟩ := removes.beside e' member
            rw [first.edgeSrc] at leaves'
            exact ⟨e₁, live', leaves', same.mp abreast⟩
        · intro e₁ e' live₁ live' leaves' abreast
          refine removes.alone e₁ e' live₁ live' ?_ (same.mpr abreast)
          rw [first.edgeSrc]
          exact leaves'
      · obtain ⟨quiet, none⟩ := flag quiet
        rw [Bool.or_eq_false_iff, Bool.not_eq_false', List.isEmpty_iff] at quiet
        exact ⟨quiet.1, by rw [quiet.2, none, List.nil_append]⟩

/-- The arc is beside an arc from the start state: another state has an edge with the same expression and
the same destination. -/
def Redundant (t : Tables) (n : Nfa) (p : NfaState) (x : Option BoolNode) (q : NfaState) : Prop :=
  t.Arc p x q ∧ p ≠ n.start ∧ t.Arc n.start x q

/-- The arc is not beside an arc from the start state. -/
def Needed (t : Tables) (n : Nfa) (p : NfaState) (x : Option BoolNode) (q : NfaState) : Prop :=
  t.Arc p x q ∧ ¬t.Redundant n p x q

theorem RemovesParallels.arc (removes : RemovesParallels t n.start es t') : t'.Arc p x q ↔ t.Needed n p x q := by
  have old : ∀ {e}, t'.Live e → t.Live e := fun live => ((removes.removes.live _).mp live).1
  have left : ∀ {e}, t.Live e → t'.Live e ∨
      ∃ e', t'.Live e' ∧ t.edgeSrc e' = n.start ∧ t.Abreast e' e := by
    intro e live
    by_cases gone : e ∈ es
    · exact .inr (removes.beside e gone)
    · exact .inl ((removes.removes.live e).mpr ⟨live, gone⟩)
  constructor
  · rintro ⟨e, live, from', expr, to'⟩
    rw [removes.removes.edgeSrc] at from'
    rw [removes.removes.edgeExpr] at expr
    rw [removes.removes.edgeDest] at to'
    refine ⟨⟨e, old live, from', expr, to'⟩, ?_⟩
    rintro ⟨-, other, e₀, live₀, from₀, expr₀, to₀⟩
    obtain ⟨e₁, live₁, from₁, expr₁, to₁⟩ : ∃ e₁, t'.Live e₁ ∧ t.edgeSrc e₁ = n.start ∧
        t.edgeExpr e₁ = x ∧ t.edgeDest e₁ = q := by
      rcases left live₀ with live₁ | ⟨e₁, live₁, from₁, expr₁, to₁⟩
      · exact ⟨e₀, live₁, from₀, expr₀, to₀⟩
      · exact ⟨e₁, live₁, from₁, expr₁.trans expr₀, to₁.trans to₀⟩
    have same := removes.alone e₁ e live₁ live from₁ ⟨expr₁.trans expr.symm, to₁.trans to'.symm⟩
    rw [same, from₁] at from'
    exact other from'.symm
  · rintro ⟨⟨e, live, from', expr, to'⟩, needed⟩
    have arc : ∀ {e'}, t'.Live e' → t.edgeSrc e' = p → t.edgeExpr e' = x → t.edgeDest e' = q →
        t'.Arc p x q := by
      intro e' live' from' expr to'
      refine ⟨e', live', ?_, ?_, ?_⟩
      · rw [removes.removes.edgeSrc]
        exact from'
      · rw [removes.removes.edgeExpr]
        exact expr
      · rw [removes.removes.edgeDest]
        exact to'
    rcases left live with live' | ⟨e', live', from₁, expr₁, to₁⟩
    · exact arc live' from' expr to'
    · by_cases here : p = n.start
      · exact arc live' (from₁.trans here.symm) (expr₁.trans expr) (to₁.trans to')
      · exact absurd ⟨⟨e, live, from', expr, to'⟩, here, e', old live', from₁, expr₁.trans expr, to₁.trans to'⟩ needed

/-- What `Remove_Simple_Prefix` returns: the words between the start state and the final state without the
redundant arcs. -/
theorem Operand.removeSimplePrefix (operand : Operand t n) : ∃ n' t', t.removeSimplePrefix n = .ok (n', t') ∧
      ∀ w, Path t'.Step n'.start w n'.final ↔ Path (Related Holds (t.Needed n)) n.start w n.final := by
  obtain ⟨es, t₁, clean, run, removes, flag⟩ := @Sound.removeParallels t n.start []
    (t.srcEdges n.start) false (t.srcEdges n.start).length operand.sound rfl (by simp) le_rfl
  have steps : ∀ p o q, t₁.Step p o q ↔ Related Holds (t.Needed n) p o q := by
    intro p o q
    cases o with
    | none => exact removes.arc
    | some letter => exact exists_congr fun b => and_congr_left fun _ => removes.arc
  cases clean with
  | false =>
    refine ⟨n, t₁, ?_, fun w => Path.congr steps⟩
    unfold Tables.removeSimplePrefix
    dsimp only
    rw [run]
    rfl
  | true =>
    obtain ⟨n', t', dead, run', removes', -, -, paths⟩ := (removes.removes.operand operand).removeUnreachableStates
    refine ⟨n', t', ?_, fun w => ?_⟩
    · unfold Tables.removeSimplePrefix
      dsimp only
      rw [run]
      exact run'
    · have start : n'.start = n.start := by rw [removes'.nfa]
      have final : n'.final = n.final := by rw [removes'.nfa]
      rw [start, final, paths, Path.congr steps]

end Tables

end Ghdl.Psl
