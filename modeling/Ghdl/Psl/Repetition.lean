import Ghdl.Psl.Ownership

/-!
# Repetitions

`Build_Star_Repeat` folds the final state into the start state, and `Build_Plus_Repeat` adds edges to the
start state. Both put the automaton into a loop: the words of the result are repetitions of segments, and
each segment should be a word of the operand.
-/

namespace Ghdl.Psl

open Automata Function
open scoped Computability

namespace Tables

variable {t t' : Tables} {n n' : Nfa} {p q s d : NfaState} {e : NfaEdge} {x : Option BoolNode}

theorem step_redirected (t : Tables) (o : Option Valuation) :
    Related Holds (Redirected t.Arc s d) p o q ↔ Redirected t.Step s d p o q := by
  cases o with
  | none => exact Iff.rfl
  | some letter =>
    constructor
    · rintro ⟨b, ⟨arc, other⟩ | ⟨arc, rfl⟩, holds⟩
      · exact .inl ⟨⟨b, arc, holds⟩, other⟩
      · exact .inr ⟨⟨b, arc, holds⟩, rfl⟩
    · rintro (⟨⟨b, arc, holds⟩, other⟩ | ⟨⟨b, arc, holds⟩, rfl⟩)
      · exact ⟨b, .inl ⟨arc, other⟩, holds⟩
      · exact ⟨b, .inr ⟨arc, rfl⟩, holds⟩

/-- When the final state is not the start state and no edge leaves it, `Build_Star_Repeat` removes it: the
edges to it lead to the start state. -/
theorem Operand.buildStarRepeat (operand : Operand t n) (apart : n.start ≠ n.final) (dead : t.srcEdges n.final = []) :
    ∃ n₁ t', t.buildStarRepeat n = .ok ({ n₁ with epsilon := false }, t') ∧
      RemovesState (t.redestEdges n.final n.start) { n with final := n.start } n.final n₁ t' ∧
      ∀ p x q, t'.Arc p x q ↔ Redirected t.Arc n.final n.start p x q := by
  have sound := operand.sound
  have alone := sound.src_nil_iff.mp dead
  have moves := sound.redestEdges (s := n.final) (operand.owned.used _ operand.owned.start)
  have noSrc : ∀ x q, ¬(t.redestEdges n.final n.start).Arc n.final x q := by
    intro x q arc
    rcases (redestEdges_arc sound).mp arc with ⟨arc, -⟩ | ⟨arc, -⟩
    all_goals exact alone _ _ arc
  have noDest : ∀ p x, ¬(t.redestEdges n.final n.start).Arc p x n.final := by
    intro p x arc
    rcases (redestEdges_arc sound).mp arc with ⟨-, other⟩ | ⟨-, same⟩
    · exact other rfl
    · exact apart same.symm
  have used : (t.redestEdges n.final n.start).Allocated n.final :=
    moves.same.allocated.mpr (operand.owned.used _ operand.owned.final)
  obtain ⟨n₁, t', run, removes, -, -⟩ :=
    moves.sound.removeUnconnectedState { n with final := n.start } used noSrc noDest
  refine ⟨n₁, t', ?_, removes, fun p x q => ?_⟩
  · unfold Tables.buildStarRepeat
    dsimp only
    rw [run]
    rfl
  · rw [removes.arc, redestEdges_arc sound]
    constructor
    · exact And.left
    · intro arc
      refine ⟨arc, ?_, ?_⟩
      · rintro rfl
        exact noSrc _ _ ((redestEdges_arc sound).mpr arc)
      · rintro rfl
        exact noDest _ _ ((redestEdges_arc sound).mpr arc)

/-- `Build_Star_Repeat` takes the states of the operand without the final state. -/
theorem Operand.buildStarRepeat_builds (operand : t.Operand n) (apart : n.start ≠ n.final)
    (dead : t.srcEdges n.final = []) : ∃ n' t', t.buildStarRepeat n = .ok (n', t') ∧ Builds t n.states n' t' ∧
      n'.start = n.start ∧ n'.final = n.start ∧ n'.epsilon = false ∧
      ∀ p x q, t'.Arc p x q ↔ Redirected t.Arc n.final n.start p x q := by
  obtain ⟨n₁, t', run, removes, arcs⟩ := operand.buildStarRepeat apart dead
  have owned := operand.owned
  have alone := operand.sound.src_nil_iff.mp dead
  have start : n₁.start = n.start := by rw [removes.nfa]
  have final : n₁.final = n.start := by rw [removes.nfa]
  have used : ∀ {p}, t'.Allocated p ↔ t.Allocated p ∧ p ≠ n.final := fun {p} =>
    removes.allocated p
  have inside : ∀ {p}, p ∈ n₁.states ↔ p ≠ n.final ∧ p ∈ n.states := by
    intro p
    rw [removes.nfa]
    exact owned.nodup.mem_erase_iff
  refine ⟨_, t', run, ⟨⟨removes.sound, ?_, ?_⟩, ?_⟩, start, final, rfl, arcs⟩
  · intro p q arc
    rcases (arcs p none q).mp arc with ⟨arc, -⟩ | ⟨arc, -⟩
    all_goals exact operand.loud _ _ arc
  · refine { nodup := ?_, used := ?_, closed := ?_, start := ?_, final := ?_ }
    · show n₁.states.Nodup
      rw [removes.nfa]
      exact owned.nodup.erase _
    · intro s member
      obtain ⟨other, member⟩ := inside.mp member
      exact used.mpr ⟨owned.used s member, other⟩
    · intro p x q arc
      show p ∈ n₁.states ↔ q ∈ n₁.states
      rw [inside, inside]
      rcases (arcs p x q).mp arc with ⟨old, other⟩ | ⟨old, rfl⟩
      · have leaves : p ≠ n.final := by
          rintro rfl
          exact alone _ _ old
        simp only [leaves, other, ne_eq, not_false_eq_true, true_and]
        exact owned.closed old
      · have leaves : p ≠ n.final := by
          rintro rfl
          exact alone _ _ old
        simp only [leaves, apart, ne_eq, not_false_eq_true, true_and]
        exact ⟨fun _ => owned.start, fun _ => (owned.closed old).mpr owned.final⟩
    · show n₁.start ∈ n₁.states
      rw [start]
      exact inside.mpr ⟨apart, owned.start⟩
    · show n₁.final ∈ n₁.states
      rw [final]
      exact inside.mpr ⟨apart, owned.start⟩
  · intro s usedS outside
    have notFinal : s ≠ n.final := fun same => outside (same ▸ owned.final)
    have notStart : s ≠ n.start := fun same => outside (same ▸ owned.start)
    refine ⟨⟨used.mpr ⟨usedS, notFinal⟩, fun x q => ?_, fun p x => ?_⟩, fun member => ?_⟩
    · rw [arcs]
      constructor
      · rintro (⟨arc, -⟩ | ⟨arc, -⟩)
        · exact arc
        · exact absurd ((owned.closed arc).mpr owned.final) outside
      · intro arc
        refine .inl ⟨arc, ?_⟩
        rintro rfl
        exact outside ((owned.closed arc).mpr owned.final)
    · rw [arcs]
      constructor
      · rintro (⟨arc, -⟩ | ⟨-, same⟩)
        · exact arc
        · exact absurd same notStart
      · exact fun arc => .inl ⟨arc, notFinal⟩
    · exact outside (inside.mp member).2

theorem redestEdges_self (sound : t.Sound) : t.redestEdges s s = t := by
  have chains : update (update t.destEdges s []) s
      (t.destEdges s ++ update t.destEdges s [] s) = t.destEdges := by
    rw [update_self, List.append_nil, Function.update_idem, Function.update_eq_self]
  have ends : (fun e => if e ∈ t.destEdges s then s else t.edgeDest e) = t.edgeDest := by
    funext e
    by_cases member : e ∈ t.destEdges s
    · rw [if_pos member, sound.dest_eq member]
    · rw [if_neg member]
  unfold redestEdges
  dsimp only
  rw [chains, ends]

/-- When the final state is the start state, `Build_Star_Repeat` asserts that it has no edges. -/
theorem Operand.buildStarRepeat_same (operand : Operand t n) (same : n.start = n.final)
    (alone : t.srcEdges n.start = [] ∧ t.destEdges n.start = []) :
    ∃ n' t', t.buildStarRepeat n = .ok (n', t') ∧ t'.language n' = 1 := by
  have noSrc := operand.sound.src_nil_iff.mp alone.1
  have noDest := operand.sound.dest_nil_iff.mp alone.2
  obtain ⟨n₁, t', run, removes, srcEdges, -⟩ :=
    operand.sound.removeUnconnectedState { n with final := n.start }
      (operand.owned.used _ operand.owned.start) noSrc noDest
  refine ⟨{ n₁ with epsilon := false }, t', ?_, ?_⟩
  · unfold Tables.buildStarRepeat
    dsimp only
    rw [← same, redestEdges_self operand.sound, run]
    rfl
  · apply IsEmptyWord.language removes.sound
    rw [removes.nfa, IsEmptyWord, srcEdges]
    exact ⟨rfl, alone.1⟩

theorem removeUnconnectedState_ok {result : Nfa × Tables}
    (run : t.removeUnconnectedState n s = .ok result) : t.srcEdges s = [] ∧ t.destEdges s = [] := by
  unfold removeUnconnectedState at run
  by_cases alone : t.srcEdges s = [] ∧ t.destEdges s = []
  · exact alone
  · rw [if_neg alone] at run
    cases run

/-- `Build_Star_Repeat` returns the repetitions exactly in two cases. Either the operand is one state without
edges; or its final state is not its start state, no edge leaves the final state, and every word that
leads from the start state back to it is a repetition of accepted words. In all other cases it raises the
assertion of `Remove_Unconnected_State`, or accepts a word that leads back to the start state only. -/
theorem build_star_repeat_iff (operand : Operand t n) :
    (∃ n' t', t.buildStarRepeat n = .ok (n', t') ∧ t'.language n' = (t.language n)∗) ↔
      (n.start = n.final ∧ t.srcEdges n.start = [] ∧ t.destEdges n.start = []) ∨
        (n.start ≠ n.final ∧ t.srcEdges n.final = [] ∧ words t.Step n.start n.start ≤ (t.language n)∗) := by
  have sound := operand.sound
  by_cases same : n.start = n.final
  · constructor
    · rintro ⟨n', t', run, -⟩
      refine .inl ⟨same, ?_⟩
      unfold Tables.buildStarRepeat at run
      dsimp only at run
      rw [← same, redestEdges_self sound] at run
      cases removal : t.removeUnconnectedState { n with final := n.start } n.start with
      | error _ =>
        rw [removal] at run
        cases run
      | ok _ => exact removeUnconnectedState_ok removal
    · rintro (⟨-, alone⟩ | ⟨apart, -⟩)
      · obtain ⟨n', t', run, language⟩ := operand.buildStarRepeat_same same alone
        refine ⟨n', t', run, ?_⟩
        rw [language, IsEmptyWord.language sound ⟨same, alone.1⟩, kstar_one]
      · exact absurd same apart
  by_cases dead : t.srcEdges n.final = []
  · obtain ⟨n₁, t₁, run, removes, arcs⟩ := operand.buildStarRepeat same dead
    have alone := sound.src_nil_iff.mp dead
    have noStep : ∀ o q, ¬t.Step n.final o q := by
      intro o q move
      cases o with
      | none => exact alone _ _ move
      | some letter =>
        obtain ⟨b, arc, -⟩ := move
        exact alone _ _ arc
    have steps : ∀ p o q, t₁.Step p o q ↔ Redirected t.Step n.final n.start p o q := by
      intro p o q
      refine Iff.trans ?_ (step_redirected t o)
      cases o with
      | none => exact arcs p none q
      | some letter => exact exists_congr fun b => and_congr_left fun _ => arcs p (some b) q
    have language : t₁.language { n₁ with epsilon := false } =
        (words t.Step n.start n.start + words t.Step n.start n.final)∗ := by
      rw [language_eq, ← words_redirected noStep same, ← words_congr steps, removes.nfa]
      simp
    constructor
    · rintro ⟨n', t', run', wanted⟩
      obtain ⟨rfl, rfl⟩ : { n₁ with epsilon := false } = n' ∧ t₁ = t' := by
        rw [run] at run'
        simpa using run'
      refine .inr ⟨same, dead, ?_⟩
      rw [← wanted, language]
      exact le_trans (by simp) le_kstar
    · rintro (⟨equal, -⟩ | ⟨-, -, covered⟩)
      · exact absurd equal same
      · refine ⟨_, t₁, run, ?_⟩
        rw [language]
        rw [kstar_language] at covered ⊢
        apply le_antisymm
        · exact (kstar_mono (add_le covered le_kstar)).trans_eq (kstar_idem _)
        · exact kstar_mono (by simp)
  · constructor
    · rintro ⟨n', t', run, -⟩
      unfold Tables.buildStarRepeat at run
      dsimp only at run
      cases removal : (t.redestEdges n.final n.start).removeUnconnectedState { n with final := n.start } n.final with
      | error _ =>
        rw [removal] at run
        cases run
      | ok _ => exact absurd (removeUnconnectedState_ok removal).1 dead
    · rintro (⟨equal, -⟩ | ⟨-, none, -⟩)
      · exact absurd equal same
      · exact absurd none dead

/-- `{a}[*]`: the operand has one edge, from the start state to the final state. -/
theorem build_star_repeat_boolean :
    ∃ n t n' t', buildSereFa (emptyTables BoolNode.number) (.boolean (.hdlExpr 0)) = .ok (n, t) ∧
      t.buildStarRepeat n = .ok (n', t') ∧ t'.language n' = (t.language n)∗ := by
  obtain ⟨n, t, run, operand, -, apart, arcs⟩ := firstBoolean (by decide : BoolNode.hdlExpr 0 ≠ .falseNode)
  have alone : ∀ x q, ¬t.Arc n.final x q := fun x q arc => apart ((arcs _ _ _).mp arc).1.symm
  have dead := operand.sound.src_nil_iff.mpr alone
  have stays : words t.Step n.start n.start ≤ (t.language n)∗ := by
    intro w path
    cases path with
    | nil => exact Language.nil_mem_kstar _
    | silent first _ => exact absurd first (operand.loud _ _)
    | letter first rest =>
      obtain ⟨b, arc, -⟩ := first
      obtain ⟨-, -, rfl⟩ := (arcs _ _ _).mp arc
      exact absurd (path_dead alone rest).2.symm apart
  obtain ⟨n', t', run', language⟩ := (build_star_repeat_iff operand).mpr (.inr ⟨apart, dead, stays⟩)
  exact ⟨n, t, n', t', run, run', language⟩

/-- `{a[*]; b}[*]` accepts the letter where only A is true. -/
theorem build_star_repeat_accepts_loop : ∃ n t n' t', buildSereFa (emptyTables BoolNode.number)
          (.concat (.star (.boolean (.hdlExpr 0))) (.boolean (.hdlExpr 1))) = .ok (n, t) ∧
        t.buildStarRepeat n = .ok (n', t') ∧ ∃ letter, [letter] ∈ t'.language n' ∧ [letter] ∉ (t.language n)∗ := by
  obtain ⟨⟨n, t⟩, ⟨n', t'⟩, run, run', built, starred⟩ :=
    @exists_ok_ok (Nfa × Tables) (Nfa × Tables) _ _
      (buildSereFa (emptyTables BoolNode.number) (.concat (.star (.boolean (.hdlExpr 0))) (.boolean (.hdlExpr 1))))
      (fun built => built.2.buildStarRepeat built.1) shape shape
      ⟨⟨[1, 3], 1, 3, false⟩, [(1, some (.hdlExpr 0), 1), (1, some (.hdlExpr 1), 3)]⟩
      ⟨⟨[1], 1, 1, false⟩, [(1, some (.hdlExpr 0), 1), (1, some (.hdlExpr 1), 1)]⟩
      (by decide +kernel)
  obtain ⟨rfl, arcs⟩ := Shape.mk.inj built
  obtain ⟨rfl, loops⟩ := Shape.mk.inj starred
  refine ⟨_, t, _, t', run, run', ⟨fun expr => expr == 0, false⟩, .inl ?_, ?_⟩
  · exact .single ⟨.hdlExpr 0, mem_arcs.mp (loops ▸ List.mem_cons_self), rfl⟩
  have edges : ∀ p x q, t.Arc p x q ↔ p = 1 ∧ x = some (.hdlExpr 0) ∧ q = 1 ∨
      p = 1 ∧ x = some (.hdlExpr 1) ∧ q = 3 := by
    intro p x q
    rw [← mem_arcs, arcs]
    simp
  have loud : t.Loud := by
    intro p q arc
    simpa using (edges _ _ _).mp arc
  rw [singleton_mem_kstar, mem_language, accepts_iff_path (List.cons_ne_nil _ _)]
  intro path
  obtain ⟨q, ⟨b, arc, holds⟩, rest⟩ := (Path.cons_iff loud.step).mp path
  obtain rfl := (Path.nil_iff loud.step).mp rest
  rcases (edges _ _ _).mp arc with ⟨-, -, impossible⟩ | ⟨-, same, -⟩
  · cases impossible
  · cases same
    cases holds

/-- The edges that the loop of `Build_Plus_Repeat` meets. -/
def walked (t : Tables) (n : Nfa) : List NfaEdge :=
  match t.destEdges n.final with
  | [] => []
  | first :: _ => t.srcEdgesFrom first

/-- The letter is read from the state along an edge that the loop meets. -/
def TurnsBack (t : Tables) (n : Nfa) (p : NfaState) (o : Option Valuation) : Prop :=
  ∃ e ∈ t.walked n, t.edgeSrc e = p ∧ ∃ b letter, t.edgeExpr e = some b ∧ o = some letter ∧ Holds b letter

/-- The words that lead from the start state along an edge that the loop meets. -/
def resumes (t : Tables) (n : Nfa) : Language Valuation := turns t.Step (t.TurnsBack n) n.start

theorem buildPlusRepeat_eq (t : Tables) (n : Nfa) : t.buildPlusRepeat n = (n, (t.walked n).foldl (fun t e =>
      (t.addEdge (t.edgeSrc e) n.start (t.edgeExpr e)).2) t) := by
  unfold buildPlusRepeat walked
  cases t.destEdges n.final with
  | nil => rfl
  | cons first rest => rfl

theorem Sound.live_of_walked (sound : t.Sound) (member : e ∈ t.walked n) : t.Live e := by
  unfold walked at member
  cases into : t.destEdges n.final with
  | nil =>
    rw [into] at member
    exact absurd member List.not_mem_nil
  | cons first rest =>
    rw [into] at member
    exact sound.live_of_src ((List.dropWhile_sublist _).mem member)

theorem Sound.mem_srcEdgesFrom (sound : t.Sound) (live : t.Live e) : e ∈ t.srcEdgesFrom e := by
  unfold srcEdgesFrom
  have member := sound.mem_src live
  rw [← @List.takeWhile_append_dropWhile _ (fun e' => e' ≠ e) (t.srcEdges (t.edgeSrc e)), List.mem_append] at member
  refine member.resolve_left fun before => ?_
  have other := List.all_eq_true.mp (@List.all_takeWhile _ (fun e' => decide (e' ≠ e)) _) e before
  simp at other

theorem Sound.resume {es : List NfaEdge} (sound : t.Sound) (used : t.Allocated d)
    (live : ∀ e ∈ es, t.Live e) (loud : ∀ e ∈ es, t.edgeExpr e ≠ none) :
    let t' := es.foldl (fun t e => (t.addEdge (t.edgeSrc e) d (t.edgeExpr e)).2) t
    Grows t t' ∧ ∀ p x q, t'.Arc p x q ↔ t.Arc p x q ∨ ∃ e ∈ es, t.edgeSrc e = p ∧ t.edgeExpr e = x ∧ d = q := by
  induction es generalizing t with
  | nil => exact ⟨Grows.refl sound, fun p x q => by simp⟩
  | cons e es ih =>
    have here := live e List.mem_cons_self
    have there : ∀ e' ∈ es, t.Live e' := fun e' member => live e' (List.mem_cons_of_mem _ member)
    obtain ⟨b, expr⟩ := Option.ne_none_iff_exists'.mp (loud e List.mem_cons_self)
    simp only [List.foldl_cons]
    rw [expr]
    have adds := sound.addEdge (sound.srcAllocated here) used (some b)
    have first := adds.grows
    obtain ⟨grows, arc⟩ := ih adds.sound (first.same.allocated.mpr used)
      (fun e' member => (first.keeps e' (there e' member)).1)
      (fun e' member => by
        rw [(first.keeps e' (there e' member)).2.2.2]
        exact loud e' (List.mem_cons_of_mem _ member))
    refine ⟨first.trans grows, fun p x q => ?_⟩
    rw [arc, adds.arc, or_assoc]
    refine or_congr Iff.rfl ⟨?_, ?_⟩
    · rintro (⟨rfl, rfl, rfl⟩ | ⟨e', member, from', expr', to'⟩)
      · exact ⟨e, List.mem_cons_self, rfl, expr, rfl⟩
      · obtain ⟨-, oldSrc, -, oldExpr⟩ := first.keeps e' (there e' member)
        exact ⟨e', List.mem_cons_of_mem _ member, oldSrc.symm.trans from', oldExpr.symm.trans expr', to'⟩
    · rintro ⟨e', member, from', expr', to'⟩
      rcases List.mem_cons.mp member with rfl | member
      · exact .inl ⟨from'.symm, expr'.symm.trans expr, to'.symm⟩
      · obtain ⟨-, oldSrc, -, oldExpr⟩ := first.keeps e' (there e' member)
        exact .inr ⟨e', member, oldSrc.trans from', oldExpr.trans expr', to'⟩

theorem Operand.walked_loud (operand : Operand t n) (member : e ∈ t.walked n) : t.edgeExpr e ≠ none := fun null =>
  operand.loud _ _ ⟨e, operand.sound.live_of_walked member, rfl, null, rfl⟩

/-- What `Build_Plus_Repeat` does to the edges. -/
theorem Operand.buildPlusRepeat_grows (operand : Operand t n) :
    Grows t (t.buildPlusRepeat n).2 ∧ ∀ p x q, (t.buildPlusRepeat n).2.Arc p x q ↔
      t.Arc p x q ∨ ∃ e ∈ t.walked n, t.edgeSrc e = p ∧ t.edgeExpr e = x ∧ n.start = q := by
  rw [buildPlusRepeat_eq]
  exact operand.sound.resume (operand.owned.used _ operand.owned.start)
    (fun e member => operand.sound.live_of_walked member) fun e member => operand.walked_loud member

/-- The result reads segments that end with an edge that the loop meets, and an accepted word at the
end. -/
theorem Operand.buildPlusRepeat_words (operand : Operand t n) : words (t.buildPlusRepeat n).2.Step n.start n.final =
      (t.resumes n)∗ * words t.Step n.start n.final := by
  obtain ⟨-, arcs⟩ := operand.buildPlusRepeat_grows
  have steps : ∀ p o q, (t.buildPlusRepeat n).2.Step p o q ↔
      Resumed t.Step (t.TurnsBack n) n.start p o q := by
    intro p o q
    cases o with
    | none =>
      refine (arcs p none q).trans (or_congr Iff.rfl ⟨?_, ?_⟩)
      · rintro ⟨e, member, -, null, -⟩
        exact absurd null (operand.walked_loud member)
      · rintro ⟨⟨e, -, -, b, letter, -, impossible, -⟩, -⟩
        cases impossible
    | some letter =>
      constructor
      · rintro ⟨b, arc, holds⟩
        rcases (arcs p (some b) q).mp arc with arc | ⟨e, member, from', expr, rfl⟩
        · exact .inl ⟨b, arc, holds⟩
        · exact .inr ⟨⟨e, member, from', b, letter, expr, rfl, holds⟩, rfl⟩
      · rintro (⟨b, arc, holds⟩ | ⟨⟨e, member, from', b, letter', expr, same, holds⟩, rfl⟩)
        · exact ⟨b, (arcs p (some b) q).mpr (.inl arc), holds⟩
        · cases same
          exact ⟨b, (arcs p (some b) _).mpr (.inr ⟨e, member, from', expr, rfl⟩), holds⟩
  rw [words_congr steps, words_resumed]
  rfl

/-- When the loop meets the edges to the final state and no other ones, the words that lead along an edge
that it meets are the accepted words with at least one letter. -/
theorem mem_resumes_of_meets (loud : t.Loud)
    (meets : ∀ p x, (∃ e ∈ t.walked n, t.edgeSrc e = p ∧ t.edgeExpr e = x) ↔ t.Arc p x n.final) {w : List Valuation} :
    w ∈ t.resumes n ↔ w ∈ words t.Step n.start n.final ∧ w ≠ [] := by
  constructor
  · rintro ⟨p, v, o, path, ⟨e, member, from', b, letter, expr, rfl, holds⟩, rfl⟩
    have last := (meets p (some b)).mp ⟨e, member, from', expr⟩
    exact ⟨path.trans (.single ⟨b, last, holds⟩), by simp⟩
  · rintro ⟨path, nonempty⟩
    obtain ⟨v, letter, rfl⟩ := (List.eq_nil_or_concat' w).resolve_left nonempty
    obtain ⟨p, before, b, last, holds⟩ := (Path.snoc_iff loud.step).mp path
    obtain ⟨e, member, from', expr⟩ := (meets p (some b)).mpr last
    exact ⟨p, v, some letter, before, ⟨e, member, from', b, letter, expr, rfl, holds⟩, rfl⟩

/-- `Build_Plus_Repeat` accepts the repetitions exactly under two conditions, in which F are the words that
lead from the start state to the final state. First, a word that leads along an edge that the loop meets, and
is not in F, is followed by words of F in a repetition only. Second, a word of F that is not read along such
an edge is not needed: what it is the first segment of is read without it. Both hold when the loop meets
the edges to the final state and no other ones. -/
theorem build_plus_repeat_iff (operand : Operand t n) :
    (t.buildPlusRepeat n).2.language (t.buildPlusRepeat n).1 = t.language n * (t.language n)∗ ↔
      (t.resumes n - words t.Step n.start n.final) * words t.Step n.start n.final ≤
          words t.Step n.start n.final * (words t.Step n.start n.final)∗ ∧
        (words t.Step n.start n.final - t.resumes n - 1) * ((t.resumes n)∗ * words t.Step n.start n.final) ≤
          (t.resumes n)∗ * words t.Step n.start n.final := by
  rw [← kstar_mul_eq_iff]
  have same : (t.buildPlusRepeat n).1 = n := by rw [buildPlusRepeat_eq]
  rw [same, kstar_language, language_eq, language_eq, operand.buildPlusRepeat_words]
  cases n.epsilon with
  | false => simp
  | true =>
    have wanted : (words t.Step n.start n.final + 1) * (words t.Step n.start n.final)∗ =
        words t.Step n.start n.final * (words t.Step n.start n.final)∗ + 1 := by
      rw [add_mul, one_mul, add_comm _ 1, Language.one_add_self_mul_kstar_eq_kstar]
      exact (Language.le_iff _ _).mp mul_kstar_le_kstar
    simp only [if_true]
    rw [wanted]
    refine add_one_inj ?_
    rw [nil_mem_mul, nil_mem_mul]
    simp [Language.nil_mem_kstar]

/-- `{a}[+]`: the loop meets the only edge. -/
theorem build_plus_repeat_boolean :
    ∃ n t, buildSereFa (emptyTables BoolNode.number) (.boolean (.hdlExpr 0)) = .ok (n, t) ∧
      (t.buildPlusRepeat n).2.language (t.buildPlusRepeat n).1 = t.language n * (t.language n)∗ := by
  obtain ⟨n, t, run, operand, -, apart, arcs⟩ := firstBoolean (by decide : BoolNode.hdlExpr 0 ≠ .falseNode)
  have sound := operand.sound
  have meets : ∀ p x, (∃ e ∈ t.walked n, t.edgeSrc e = p ∧ t.edgeExpr e = x) ↔ t.Arc p x n.final := by
    intro p x
    have only : ∀ {e}, t.Live e → t.edgeSrc e = n.start ∧ t.edgeExpr e = some (.hdlExpr 0) ∧
        t.edgeDest e = n.final := fun {e} live => (arcs _ _ _).mp ⟨e, live, rfl, rfl, rfl⟩
    constructor
    · rintro ⟨e, member, rfl, rfl⟩
      have live := sound.live_of_walked member
      exact ⟨e, live, rfl, rfl, (only live).2.2⟩
    rintro ⟨e, live, rfl, rfl, enters⟩
    unfold walked
    cases into : t.destEdges n.final with
    | nil => exact absurd (into ▸ sound.dest.mpr ⟨live, enters⟩) List.not_mem_nil
    | cons first rest =>
      have live' : t.Live first := sound.live_of_dest (into ▸ List.mem_cons_self)
      refine ⟨first, ?_, (only live').1.trans (only live).1.symm, (only live').2.1.trans (only live).2.1.symm⟩
      exact sound.mem_srcEdgesFrom live'
  have resumed := fun w => @mem_resumes_of_meets t n operand.loud meets w
  refine ⟨n, t, run, (build_plus_repeat_iff operand).mpr ⟨?_, ?_⟩⟩
  · rintro w ⟨u, ⟨inside, outside⟩, v, -, rfl⟩
    exact absurd ((resumed u).mp inside).1 outside
  · rintro w ⟨u, ⟨⟨inside, outside⟩, nonempty⟩, v, -, rfl⟩
    exact absurd ((resumed u).mpr ⟨inside, nonempty⟩) outside

/-- `{{a; b} | c}[+]` accepts a letter where only A is true and a letter where only C is true. -/
theorem build_plus_repeat_accepts_more : ∃ n t n' t' w, buildSereFa (emptyTables BoolNode.number)
          (.or (.concat (.boolean (.hdlExpr 0)) (.boolean (.hdlExpr 1))) (.boolean (.hdlExpr 2))) = .ok (n, t) ∧
        t.buildPlusRepeat n = (n', t') ∧ w ∈ t'.language n' ∧ w ∉ t.language n * (t.language n)∗ := by
  obtain ⟨⟨n, t⟩, ⟨n', t'⟩, run, run', built, added⟩ :=
    @exists_ok_ok (Nfa × Tables) (Nfa × Tables) _ _
      (buildSereFa (emptyTables BoolNode.number)
        (.or (.concat (.boolean (.hdlExpr 0)) (.boolean (.hdlExpr 1))) (.boolean (.hdlExpr 2))))
      (fun built => .ok (built.2.buildPlusRepeat built.1)) shape shape
      ⟨⟨[3, 6, 7], 6, 7, false⟩, [(6, some (.hdlExpr 0), 3), (3, some (.hdlExpr 1), 7), (6, some (.hdlExpr 2), 7)]⟩
      ⟨⟨[3, 6, 7], 6, 7, false⟩,
        [(6, some (.hdlExpr 0), 3), (3, some (.hdlExpr 1), 7), (6, some (.hdlExpr 2), 7),
          (6, some (.hdlExpr 0), 6), (6, some (.hdlExpr 2), 6)]⟩
      (by decide +kernel)
  obtain ⟨rfl, arcs⟩ := Shape.mk.inj built
  obtain ⟨rfl, arcs'⟩ := Shape.mk.inj added
  let a : Valuation := ⟨fun expr => expr == 0, false⟩
  let c : Valuation := ⟨fun expr => expr == 2, false⟩
  refine ⟨_, t, _, t', [a, c], run, Except.ok.inj run', .inl ?_, fun inside => ?_⟩
  · have resume : t'.Step 6 (some a) 6 := ⟨.hdlExpr 0, mem_arcs.mp (by simp [arcs']), rfl⟩
    have last : t'.Step 6 (some c) 7 := ⟨.hdlExpr 2, mem_arcs.mp (by simp [arcs']), rfl⟩
    exact .letter resume (.single last)
  have edges : ∀ p x q, t.Arc p x q ↔ p = 6 ∧ x = some (.hdlExpr 0) ∧ q = 3 ∨
      p = 3 ∧ x = some (.hdlExpr 1) ∧ q = 7 ∨ p = 6 ∧ x = some (.hdlExpr 2) ∧ q = 7 := by
    intro p x q
    rw [← mem_arcs, arcs]
    simp
  have loud : t.Loud := by
    intro p q arc
    simpa using (edges _ _ _).mp arc
  have first : ∀ {q}, t.Step 6 (some a) q → q = 3 := by
    rintro q ⟨b, arc, holds⟩
    rcases (edges _ _ _).mp arc with ⟨-, -, target⟩ | ⟨impossible, -⟩ | ⟨-, same, -⟩
    · exact target
    · cases impossible
    · cases same
      cases holds
  rcases pair_mem_kstar (mem_of_le mul_kstar_le_kstar inside) with inside | inside
  · rw [mem_language, accepts_iff_path (List.cons_ne_nil _ _)] at inside
    obtain ⟨q, move, rest⟩ := (Path.cons_iff loud.step).mp inside
    obtain rfl := first move
    obtain ⟨q, ⟨b, arc, holds⟩, -⟩ := (Path.cons_iff loud.step).mp rest
    rcases (edges _ _ _).mp arc with ⟨impossible, -⟩ | ⟨-, same, -⟩ | ⟨impossible, -⟩
    · cases impossible
    · cases same
      cases holds
    · cases impossible
  · rw [mem_language, accepts_iff_path (List.cons_ne_nil _ _)] at inside
    obtain ⟨q, move, rest⟩ := (Path.cons_iff loud.step).mp inside
    obtain rfl := first move
    cases (Path.nil_iff loud.step).mp rest

end Tables

end Ghdl.Psl
