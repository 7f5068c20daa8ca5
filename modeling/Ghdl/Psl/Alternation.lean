import Ghdl.Psl.Thompson

/-!
# Alternation

`Build_Or` removes the epsilon edges of the Thompson construction one after the other. Every word that is not
empty is accepted by the result exactly when an operand accepts it. The empty word is lost where an operand
accepts it by its start state being its final state: the removals then separate the new start state from the
new final state, unless they merge both.
-/

namespace Ghdl.Psl

open Automata

namespace Tables

variable {t t₀ t₁ t₂ t₃ t₄ t' : Tables} {l r n n' n₁ n₂ n₃ n₄ : Nfa}
  {p q s d start final last lastL lastR : NfaState} {e eSL eSR eLF eRF : NfaEdge}
  {x : Option BoolNode} {bs : List BoolNode} {w : List Valuation}

section

variable (removes : RemovesEpsilonEdge t n s d n' t')
include removes

theorem RemovesEpsilonEdge.flag : n'.epsilon = n.epsilon := by
  cases removes with
  | redirected _ _ _ nfa | resourced _ _ _ _ nfa | duplicated _ _ _ _ nfa => rw [nfa]

theorem RemovesEpsilonEdge.finalState (other : n.final ≠ d) : n'.final = n.final := by
  cases removes with
  | redirected _ _ _ nfa | duplicated _ _ _ _ nfa => rw [nfa]
  | resourced _ _ _ _ nfa =>
    rw [nfa]
    exact if_neg other

/-- A state that nothing leaves stays so. -/
theorem RemovesEpsilonEdge.dead (other : p ≠ s) (dead : ∀ x q, ¬t.Arc p x q) (x : Option BoolNode) (q : NfaState) :
    ¬t'.Arc p x q := by
  cases removes with
  | redirected _ arc =>
    rw [arc]
    rintro (⟨taken, -⟩ | ⟨taken, -⟩) <;> exact dead _ _ taken
  | resourced _ _ arc =>
    rw [arc]
    rintro (⟨taken, -⟩ | ⟨-, same⟩)
    · exact dead _ _ taken
    · exact other same
  | duplicated _ _ arc =>
    rw [arc]
    rintro ((taken | ⟨taken, -⟩) | ⟨-, -, same⟩)
    · exact dead _ _ taken
    · exact dead _ _ taken
    · exact other same

end

/-- The union of the words of both operands. -/
def Either (t : Tables) (l r : Nfa) (bs : List BoolNode) : Prop :=
  Path t.Arc l.start bs l.final ∨ Path t.Arc r.start bs r.final

/-- What is there after the epsilon edge to the start state of L is removed. The final state of L is the
state LAST now. -/
structure Opened (t : Tables) (l r : Nfa) (start final last : NfaState) (eSR eLF eRF : NfaEdge)
    (n₁ : Nfa) (t₁ : Tables) : Prop where
  sound : t₁.Sound
  pending : Pending t₁ [(eSR, start, r.start), (eLF, last, final), (eRF, r.final, final)]
  startState : n₁.start = start
  finalState : n₁.final = final
  flag : n₁.epsilon = (l.epsilon || r.epsilon)
  different : start ≠ final
  startOutside : start ∉ l.states ∧ start ∉ r.states
  finalOutside : final ∉ l.states ∧ final ∉ r.states
  where_last : last = start ∧ t₁.Leaves start ∨ last ∈ l.states
  leaves : t₁.Leaves start ↔ t.Leaves l.start
  closed : ∀ p x, ¬t₁.Arc p x start
  enters : t₁.Enters last ↔ t.Enters l.final
  dead : ∀ x q, ¬t₁.Arc final x q
  unreached : ¬t₁.Enters final
  outRight : ∀ p ∈ r.states, ∀ b q, t₁.Arc p (some b) q ↔ t.Arc p (some b) q
  inRight : ∀ q ∈ r.states, ∀ p b, p ≠ start → (t₁.Arc p (some b) q ↔ t.Arc p (some b) q)
  inStart : ∀ q ∈ r.states, ∀ b, ¬t₁.Arc start (some b) q
  path : ∀ bs, bs ≠ [] → (Path t₁.Arc n₁.start bs n₁.final ↔ Either t l r bs)

theorem Thompson.open (operands : Operands t l r) (built : Thompson t l r start final eSL eSR eLF eRF n t₀)
    (busy : l.start = l.final → t.Leaves l.start) : ∃ last n₁ t₁, t₀.removeEpsilon n eSL = .ok (n₁, t₁) ∧
      Opened t l r start final last eSR eLF eRF n₁ t₁ := by
  have startNot : l.start ≠ start := built.start_not_left operands operands.left.start
  have different : l.final ≠ r.final := fun same =>
    operands.apart l.final operands.left.final (same ▸ operands.right.final)
  have startLeft : start ≠ l.final := (built.start_not_left operands operands.left.final).symm
  obtain ⟨n₁, t', t₁, run, sound, silenced, pending, old, -, removes⟩ :=
    built.sound.removeEpsilon n built.pending startNot.symm (by
      have startRight : start ≠ r.final := (built.start_not_right operands operands.right.final).symm
      simp [startLeft, startRight, different])
  -- The edges with an expression are still those of the operands.
  have arc' : ∀ p b q, t'.Arc p (some b) q ↔ t.Arc p (some b) q := by
    intro p b q
    rw [← built.arc, silenced]
    simp [Silenced]
  have epsilon' : ∀ p q, t'.Arc p none q ↔
      p = start ∧ q = r.start ∨ (p = l.final ∨ p = r.final) ∧ q = final := by
    intro p q
    rw [pending.arc]
    simp only [List.map_cons, List.map_nil, List.mem_cons, Prod.mk.injEq, List.not_mem_nil, or_false]
    tauto
  have closed' : ∀ p x, ¬t'.Arc p x start := by
    intro p x arc
    cases x with
    | some b => exact built.startFresh (operands.sound.arc_allocated ((arc' _ _ _).mp arc)).2
    | none =>
      rcases (epsilon' _ _).mp arc with ⟨-, same⟩ | ⟨-, same⟩
      · exact built.start_not_right operands operands.right.start same.symm
      · exact built.different same
  have dead' : ∀ x q, ¬t'.Arc final x q := by
    intro x q arc
    exact built.final_dead operands x q ((silenced _ _ _).mpr (.inl arc))
  have fresh : ∀ b q, ¬t'.Arc start (some b) q := fun b q arc =>
    built.startFresh (operands.sound.arc_allocated ((arc' _ _ _).mp arc)).1
  have unreached' : ∀ p b, ¬t'.Arc p (some b) final := fun p b arc =>
    built.finalFresh (operands.sound.arc_allocated ((arc' _ _ _).mp arc)).2
  have startOutside : start ∉ l.states ∧ start ∉ r.states :=
    ⟨fun inside => built.start_not_left operands inside rfl, fun inside => built.start_not_right operands inside rfl⟩
  have finalOutside : final ∉ l.states ∧ final ∉ r.states :=
    ⟨fun inside => built.final_not_left operands inside rfl, fun inside => built.final_not_right operands inside rfl⟩
  have startState : n.start = start := by rw [built.nfa]
  have finalState : n.final = final := by rw [built.nfa]
  have flag : n.epsilon = (l.epsilon || r.epsilon) := by rw [built.nfa]
  have path : ∀ bs, bs ≠ [] → (Path t₁.Arc n₁.start bs n₁.final ↔ Either t l r bs) := by
    intro bs nonempty
    rw [removes.path_iff (finalState ▸ built.different.symm) (startState ▸ startNot.symm)
      (fun r => closed' r none) ?_ nonempty, ← Path.congr silenced, startState, finalState]
    · exact built.path_iff operands
    · intro q arc
      rcases (epsilon' _ _).mp arc with ⟨same, -⟩ | ⟨-, rfl⟩
      · exact absurd same startNot
      · exact dead'
  have flag := removes.flag.trans flag
  have dead := removes.dead built.different.symm dead'
  have finalState : n₁.final = final :=
    (removes.finalState (finalState ▸ (built.final_not_left operands operands.left.start).symm)).trans finalState
  cases removes with
  | redirected alone => exact absurd ((epsilon' _ _).mpr (.inl ⟨rfl, rfl⟩)) (alone none r.start)
  | resourced leaves alone arc allocated nfa epsilons =>
    -- The start state of L is merged with the new one.
    have some_arc : ∀ p b q, t₁.Arc p (some b) q ↔
        t.Arc p (some b) q ∧ p ≠ l.start ∨ t.Arc l.start (some b) q ∧ p = start := by
      intro p b q
      rw [arc]
      unfold Resourced
      rw [arc', arc']
    refine ⟨if l.final = l.start then start else l.final, n₁, t₁, run, ?_⟩
    have noEnter : ¬t.Enters l.start := by
      rintro ⟨p, b, arc⟩
      exact alone _ _ ((arc' _ _ _).mpr arc)
    have leaves₁ : t₁.Leaves start ↔ t.Leaves l.start := by
      constructor
      · rintro ⟨b, q, arc⟩
        rcases (some_arc _ _ _).mp arc with ⟨arc, -⟩ | ⟨arc, -⟩
        · exact absurd (operands.sound.arc_allocated arc).1 built.startFresh
        · exact ⟨b, q, arc⟩
      · rintro ⟨b, q, arc⟩
        exact ⟨b, q, (some_arc _ _ _).mpr (.inr ⟨arc, rfl⟩)⟩
    have enters₁ : ∀ q, t₁.Enters q ↔ t.Enters q := by
      intro q
      constructor
      · rintro ⟨p, b, arc⟩
        rcases (some_arc _ _ _).mp arc with ⟨arc, -⟩ | ⟨arc, -⟩
        · exact ⟨p, b, arc⟩
        · exact ⟨_, b, arc⟩
      · rintro ⟨p, b, arc⟩
        by_cases here : p = l.start
        · exact ⟨start, b, (some_arc _ _ _).mpr (.inr ⟨here ▸ arc, rfl⟩)⟩
        · exact ⟨p, b, (some_arc _ _ _).mpr (.inl ⟨arc, here⟩)⟩
    refine
      { sound, path, different := built.different, startOutside, finalOutside, flag, dead, finalState
        leaves := leaves₁, pending := ?_, startState := ?_, where_last := ?_, closed := ?_, enters := ?_
        unreached := ?_, outRight := ?_, inRight := ?_, inStart := ?_ }
    · have moved := pending.move epsilons old
      have first : (if start = l.start then start else start) = start := ite_self _
      have third : r.final ≠ l.start := fun same =>
        operands.apart _ operands.left.start (same ▸ operands.right.final)
      simpa [startNot.symm, third] using moved
    · rw [nfa]
      exact startState
    · by_cases same : l.final = l.start
      · rw [if_pos same]
        exact .inl ⟨rfl, leaves₁.mpr (busy same.symm)⟩
      · rw [if_neg same]
        exact .inr operands.left.final
    · intro p x taken
      rcases (arc _ _ _).mp taken with ⟨taken, -⟩ | ⟨taken, -⟩
      all_goals exact closed' _ _ taken
    · by_cases same : l.final = l.start
      · rw [if_pos same, enters₁, same]
        refine iff_of_false ?_ noEnter
        rintro ⟨p, b, arc⟩
        exact built.startFresh (operands.sound.arc_allocated arc).2
      · rw [if_neg same]
        exact enters₁ _
    · rw [enters₁]
      rintro ⟨p, b, arc⟩
      exact built.finalFresh (operands.sound.arc_allocated arc).2
    · intro p inside b q
      have other : p ≠ l.start := fun same =>
        operands.apart _ operands.left.start (same ▸ inside)
      have other' : p ≠ start := built.start_not_right operands inside
      rw [some_arc]
      simp [other, other']
    · intro q inside p b other
      rw [some_arc]
      constructor
      · rintro (⟨arc, -⟩ | ⟨-, same⟩)
        · exact arc
        · exact absurd same other
      · intro arc
        refine .inl ⟨arc, fun same => operands.apart _ operands.left.start ?_⟩
        exact (operands.right.closed (same ▸ arc)).mpr inside
    · intro q inside b taken
      rcases (some_arc _ _ _).mp taken with ⟨arc, -⟩ | ⟨arc, -⟩
      · exact built.startFresh (operands.sound.arc_allocated arc).1
      · exact operands.apart _ operands.left.start ((operands.right.closed arc).mpr inside)
  | duplicated leaves enters arc allocated nfa epsilons =>
    -- The edges from the start state of L leave the new one too.
    have some_arc : ∀ p b q, t₁.Arc p (some b) q ↔
        t.Arc p (some b) q ∨ t.Arc l.start (some b) q ∧ p = start := by
      intro p b q
      rw [arc]
      simp only [Forked, Duplicated, arc', ne_eq, reduceCtorEq, not_false_eq_true, true_and]
      have none : ∀ p, ¬t.Arc p (some b) start := fun p arc =>
        built.startFresh (operands.sound.arc_allocated arc).2
      simp [none]
    refine ⟨l.final, n₁, t₁, run, ?_⟩
    refine
      { sound, path, different := built.different, startOutside, finalOutside, flag, dead, finalState
        leaves := ?_, pending := ?_, startState := ?_, where_last := .inr operands.left.final, closed := ?_
        enters := ?_, unreached := ?_, outRight := ?_, inRight := ?_, inStart := ?_ }
    · have moved := pending.move epsilons old
      simpa using moved
    · rw [nfa]
      exact startState
    · constructor
      · rintro ⟨b, q, taken⟩
        rcases (some_arc _ _ _).mp taken with arc | ⟨arc, -⟩
        · exact absurd (operands.sound.arc_allocated arc).1 built.startFresh
        · exact ⟨b, q, arc⟩
      · rintro ⟨b, q, arc⟩
        exact ⟨b, q, (some_arc _ _ _).mpr (.inr ⟨arc, rfl⟩)⟩
    · intro p x taken
      rcases (arc _ _ _).mp taken with (taken | ⟨taken, -⟩) | ⟨taken | ⟨taken, -⟩, -⟩
      all_goals exact closed' _ _ taken
    · constructor
      · rintro ⟨p, b, taken⟩
        rcases (some_arc _ _ _).mp taken with arc | ⟨arc, -⟩
        · exact ⟨p, b, arc⟩
        · exact ⟨_, b, arc⟩
      · rintro ⟨p, b, arc⟩
        exact ⟨p, b, (some_arc _ _ _).mpr (.inl arc)⟩
    · rintro ⟨p, b, taken⟩
      rcases (some_arc _ _ _).mp taken with arc | ⟨arc, -⟩
      all_goals exact built.finalFresh (operands.sound.arc_allocated arc).2
    · intro p inside b q
      have other : p ≠ start := built.start_not_right operands inside
      rw [some_arc]
      simp [other]
    · intro q inside p b other
      rw [some_arc]
      simp [other]
    · intro q inside b taken
      rcases (some_arc _ _ _).mp taken with arc | ⟨arc, -⟩
      · exact built.startFresh (operands.sound.arc_allocated arc).1
      · exact operands.apart _ operands.left.start ((operands.right.closed arc).mpr inside)

/-- What is there after both epsilon edges from the new start state are removed. The final states of the
operands are LASTL and LASTR now. -/
structure Joined (t : Tables) (l r : Nfa) (final lastL lastR : NfaState) (eLF eRF : NfaEdge)
    (n₂ : Nfa) (t₂ : Tables) : Prop where
  sound : t₂.Sound
  pending : Pending t₂ [(eLF, lastL, final), (eRF, lastR, final)]
  finalState : n₂.final = final
  flag : n₂.epsilon = (l.epsilon || r.epsilon)
  startNot : n₂.start ≠ final
  leftNot : lastL ≠ final
  rightNot : lastR ≠ final
  dead : ∀ x q, ¬t₂.Arc final x q
  unreached : ¬t₂.Enters final
  enters : t₂.Enters lastL ↔ t.Enters l.final
  busy : lastL = n₂.start → t₂.Leaves n₂.start
  merged : lastR = n₂.start ↔
    r.start = r.final ∧ (¬t.Leaves l.start ∨ ¬t.Enters r.start)
  leaves : lastR = n₂.start → (t₂.Leaves n₂.start ↔ t.Leaves l.start ∨ t.Leaves r.start)
  path : ∀ bs, bs ≠ [] → (Path t₂.Arc n₂.start bs n₂.final ↔ Either t l r bs)

theorem Opened.join (operands : Operands t l r) (opened : Opened t l r start final last eSR eLF eRF n₁ t₁) :
    ∃ lastR n₂ t₂, t₁.removeEpsilon n₁ eSR = .ok (n₂, t₂) ∧ Joined t l r final last lastR eLF eRF n₂ t₂ := by
  have startNot : start ≠ r.start := fun same => opened.startOutside.2 (same ▸ operands.right.start)
  have startNot' : start ≠ r.final := fun same => opened.startOutside.2 (same ▸ operands.right.final)
  have finalNot : final ≠ r.start := fun same => opened.finalOutside.2 (same ▸ operands.right.start)
  have finalNot' : final ≠ r.final := fun same => opened.finalOutside.2 (same ▸ operands.right.final)
  have lastOutside : last ∉ r.states := by
    rcases opened.where_last with ⟨rfl, -⟩ | inside
    · exact opened.startOutside.2
    · exact operands.apart last inside
  have lastNot : last ≠ final := by
    rcases opened.where_last with ⟨rfl, -⟩ | inside
    · exact opened.different
    · exact fun same => opened.finalOutside.1 (same ▸ inside)
  have lastNot' : last ≠ r.final := fun same => lastOutside (same ▸ operands.right.final)
  have lastNot'' : last ≠ r.start := fun same => lastOutside (same ▸ operands.right.start)
  obtain ⟨n₂, t', t₂, run, sound, silenced, pending, old, -, removes⟩ :=
    opened.sound.removeEpsilon n₁ opened.pending startNot (by simp [lastNot'])
  have arc' : ∀ p b q, t'.Arc p (some b) q ↔ t₁.Arc p (some b) q := by
    intro p b q
    rw [silenced]
    simp [Silenced]
  have epsilon' : ∀ p q, t'.Arc p none q ↔ (p = last ∨ p = r.final) ∧ q = final := by
    intro p q
    rw [pending.arc]
    simp only [List.map_cons, List.map_nil, List.mem_cons, Prod.mk.injEq, List.not_mem_nil, or_false]
    tauto
  have old' : ∀ {p x q}, t'.Arc p x q → t₁.Arc p x q := fun taken =>
    (silenced _ _ _).mpr (.inl taken)
  have toRight : ∀ b q, t₁.Arc r.start (some b) q → q ∈ r.states := fun b q taken =>
    (operands.right.closed ((opened.outRight _ operands.right.start _ _).mp taken)).mp operands.right.start
  have path : ∀ bs, bs ≠ [] → (Path t₂.Arc n₂.start bs n₂.final ↔ Either t l r bs) := by
    intro bs nonempty
    rw [removes.path_iff (opened.finalState ▸ opened.different.symm) (opened.startState ▸ startNot)
      (fun q taken => opened.closed _ _ (old' taken)) ?_ nonempty,
      ← Path.congr silenced]
    · exact opened.path bs nonempty
    · intro q taken
      obtain ⟨-, rfl⟩ := (epsilon' _ _).mp taken
      exact fun x q taken => opened.dead x q (old' taken)
  have flag := removes.flag.trans opened.flag
  have dead := removes.dead opened.different.symm fun x q taken => opened.dead x q (old' taken)
  have finalState := (removes.finalState (opened.finalState ▸ finalNot)).trans opened.finalState
  have busyOf : (∃ x q, t'.Arc start x q) → t₁.Leaves start := by
    rintro ⟨x, q, taken⟩
    cases x with
    | some b => exact ⟨b, q, (arc' _ _ _).mp taken⟩
    | none =>
      obtain ⟨here | here, -⟩ := (epsilon' _ _).mp taken
      · rcases opened.where_last with ⟨-, busy⟩ | inside
        · exact busy
        · exact absurd (here ▸ inside) opened.startOutside.1
      · exact absurd here startNot'
  cases removes with
  | redirected alone arc allocated nfa epsilons =>
    -- Nothing leaves the new start state, which is replaced by the one of R.
    have idle : ¬t.Leaves l.start := by
      rw [← opened.leaves]
      rintro ⟨b, q, taken⟩
      exact alone _ _ ((arc' _ _ _).mpr taken)
    have lastStart : last ≠ start := by
      rintro rfl
      exact alone none final ((epsilon' _ _).mpr ⟨.inl rfl, rfl⟩)
    have same : ∀ p x q, t₂.Arc p x q ↔ t'.Arc p x q := by
      intro p x q
      rw [arc]
      constructor
      · rintro (⟨taken, -⟩ | ⟨taken, -⟩)
        · exact taken
        · exact absurd (old' taken) (opened.closed _ _)
      · intro taken
        exact .inl ⟨taken, fun here => opened.closed p x (here ▸ old' taken)⟩
    have startState : n₂.start = r.start := by
      rw [nfa]
      exact if_pos opened.startState
    refine ⟨r.final, n₂, t₂, run, ?_⟩
    refine
      { sound, path, flag, dead, finalState, pending := ?_, startNot := ?_, leftNot := lastNot
        rightNot := finalNot'.symm, unreached := ?_, enters := ?_, busy := ?_, merged := ?_, leaves := ?_ }
    · have moved := pending.move epsilons old
      simpa [opened.different.symm] using moved
    · rw [startState]
      exact finalNot.symm
    · rintro ⟨p, b, taken⟩
      exact opened.unreached ⟨p, b, old' ((same _ _ _).mp taken)⟩
    · rw [← opened.enters]
      unfold Enters
      simp only [same, arc']
    · rw [startState]
      exact fun here => absurd here lastNot''
    · rw [startState]
      exact ⟨fun here => ⟨here.symm, .inl idle⟩, fun here => here.1.symm⟩
    · intro _
      rw [startState]
      unfold Leaves at idle ⊢
      simp only [same, arc', opened.outRight _ operands.right.start]
      exact ⟨.inr, fun side => side.resolve_left idle⟩
  | resourced leaves alone arc allocated nfa epsilons =>
    -- The start state of R is merged with the new one.
    have noEnter : ¬t.Enters r.start := by
      rintro ⟨p, b, taken⟩
      have inside := (operands.right.closed taken).mpr operands.right.start
      have other : p ≠ start := fun here => opened.startOutside.2 (here ▸ inside)
      exact alone _ _ ((arc' _ _ _).mpr ((opened.inRight _ operands.right.start _ _ other).mpr taken))
    have busy := busyOf leaves
    have some_arc : ∀ p b q, t₂.Arc p (some b) q ↔
        t₁.Arc p (some b) q ∧ p ≠ r.start ∨ t₁.Arc r.start (some b) q ∧ p = start := by
      intro p b q
      rw [arc]
      unfold Resourced
      rw [arc', arc']
    have startState : n₂.start = start := by
      rw [nfa]
      exact opened.startState
    have busy₂ : t₂.Leaves start := by
      obtain ⟨b, q, taken⟩ := busy
      exact ⟨b, q, (some_arc _ _ _).mpr (.inl ⟨taken, startNot⟩)⟩
    refine ⟨if r.final = r.start then start else r.final, n₂, t₂, run, ?_⟩
    refine
      { sound, path, flag, dead, finalState, pending := ?_, startNot := ?_, leftNot := lastNot
        rightNot := ?_, unreached := ?_, enters := ?_, busy := ?_, merged := ?_, leaves := ?_ }
    · have moved := pending.move epsilons old
      simpa [lastNot''] using moved
    · rw [startState]
      exact opened.different
    · by_cases here : r.final = r.start
      · rw [if_pos here]
        exact opened.different
      · rw [if_neg here]
        exact finalNot'.symm
    · rintro ⟨p, b, taken⟩
      rcases (some_arc _ _ _).mp taken with ⟨taken, -⟩ | ⟨taken, -⟩
      · exact opened.unreached ⟨p, b, taken⟩
      · exact opened.unreached ⟨_, b, taken⟩
    · rw [← opened.enters]
      constructor
      · rintro ⟨p, b, taken⟩
        rcases (some_arc _ _ _).mp taken with ⟨taken, -⟩ | ⟨taken, -⟩
        · exact ⟨p, b, taken⟩
        · exact ⟨_, b, taken⟩
      · rintro ⟨p, b, taken⟩
        refine ⟨p, b, (some_arc _ _ _).mpr (.inl ⟨taken, ?_⟩)⟩
        rintro rfl
        exact lastOutside (toRight b last taken)
    · rw [startState]
      exact fun _ => busy₂
    · rw [startState]
      constructor
      · intro same
        by_cases here : r.final = r.start
        · exact ⟨here.symm, .inr noEnter⟩
        · rw [if_neg here] at same
          exact absurd same startNot'.symm
      · rintro ⟨here, -⟩
        exact if_pos here.symm
    · intro _
      rw [startState]
      exact ⟨fun _ => .inl (opened.leaves.mp busy), fun _ => busy₂⟩
  | duplicated leaves enters arc allocated nfa epsilons =>
    -- The edges from the start state of R leave the new one too.
    have some_arc : ∀ p b q, t₂.Arc p (some b) q ↔
        t₁.Arc p (some b) q ∨ t₁.Arc r.start (some b) q ∧ p = start := by
      intro p b q
      rw [arc]
      simp [Forked, Duplicated, arc', opened.closed]
    have busy := busyOf leaves
    have entered : t.Enters r.start := by
      obtain ⟨p, x, taken⟩ := enters
      cases x with
      | none => exact absurd ((epsilon' _ _).mp taken).2 finalNot.symm
      | some b =>
        have taken := (arc' _ _ _).mp taken
        have other : p ≠ start := fun here =>
          opened.inStart _ operands.right.start b (here ▸ taken)
        exact ⟨p, b, (opened.inRight _ operands.right.start _ _ other).mp taken⟩
    have startState : n₂.start = start := by
      rw [nfa]
      exact opened.startState
    refine ⟨r.final, n₂, t₂, run, ?_⟩
    refine
      { sound, path, flag, dead, finalState, pending := ?_, startNot := ?_, leftNot := lastNot
        rightNot := finalNot'.symm, unreached := ?_, enters := ?_, busy := ?_, merged := ?_, leaves := ?_ }
    · have moved := pending.move epsilons old
      simpa using moved
    · rw [startState]
      exact opened.different
    · rintro ⟨p, b, taken⟩
      rcases (some_arc _ _ _).mp taken with taken | ⟨taken, -⟩
      · exact opened.unreached ⟨p, b, taken⟩
      · exact opened.unreached ⟨_, b, taken⟩
    · rw [← opened.enters]
      constructor
      · rintro ⟨p, b, taken⟩
        rcases (some_arc _ _ _).mp taken with taken | ⟨taken, -⟩
        · exact ⟨p, b, taken⟩
        · exact ⟨_, b, taken⟩
      · rintro ⟨p, b, taken⟩
        exact ⟨p, b, (some_arc _ _ _).mpr (.inl taken)⟩
    · rw [startState]
      intro _
      obtain ⟨b, q, taken⟩ := busy
      exact ⟨b, q, (some_arc _ _ _).mpr (.inl taken)⟩
    · rw [startState]
      constructor
      · exact fun same => absurd same startNot'.symm
      · rintro ⟨-, idle | noEnter⟩
        · exact absurd (opened.leaves.mp busy) idle
        · exact absurd entered noEnter
    · rw [startState]
      exact fun same => absurd same startNot'.symm

/-- The automaton at the end. Its start state is its final state where both new states were merged. -/
structure Finished (t : Tables) (l r : Nfa) (n₄ : Nfa) (t₄ : Tables) : Prop where
  sound : t₄.Sound
  loud : t₄.Loud
  flag : n₄.epsilon = (l.epsilon || r.epsilon)
  merged : n₄.start = n₄.final ↔ r.start = r.final ∧ (¬t.Leaves l.start ∨ ¬t.Enters r.start) ∧
    (¬t.Leaves l.start ∧ ¬t.Leaves r.start ∨ ¬t.Enters l.final)
  path : ∀ bs, bs ≠ [] → (Path t₄.Arc n₄.start bs n₄.final ↔ Either t l r bs)

theorem Joined.finish (joined : Joined t l r final lastL lastR eLF eRF n₂ t₂) :
    ∃ n₃ t₃ n₄ t₄, t₂.removeEpsilon n₂ eLF = .ok (n₃, t₃) ∧ t₃.removeEpsilon n₃ eRF = .ok (n₄, t₄) ∧
      Finished t l r n₄ t₄ := by
  obtain ⟨n₃, t', t₃, run₃, sound₃, silenced, pending, old, -, removes⟩ :=
    joined.sound.removeEpsilon n₂ joined.pending joined.leftNot (by simp)
  have arc' : ∀ p b q, t'.Arc p (some b) q ↔ t₂.Arc p (some b) q := by
    intro p b q
    rw [silenced]
    simp [Silenced]
  have epsilon' : ∀ p q, t'.Arc p none q ↔ p = lastR ∧ q = final := by
    intro p q
    rw [pending.arc]
    simp
  have old' : ∀ {p x q}, t'.Arc p x q → t₂.Arc p x q := fun taken =>
    (silenced _ _ _).mpr (.inl taken)
  have path₃ : ∀ bs, bs ≠ [] → (Path t₃.Arc n₃.start bs n₃.final ↔ Either t l r bs) := by
    intro bs nonempty
    rw [removes.path_iff (joined.finalState ▸ joined.leftNot.symm) joined.startNot ?_ ?_
      nonempty, ← Path.congr silenced]
    · exact joined.path bs nonempty
    · exact fun q taken => joined.leftNot ((epsilon' _ _).mp taken).2
    · exact fun q taken => absurd (old' taken) (joined.dead _ _)
  have flag := removes.flag
  -- The start state stays, and the final state is entered where the final state of L was.
  have stage : n₃.start = n₂.start ∧ n₃.final = final ∧ Pending t₃ [(eRF, lastR, final)] ∧
      (t₃.Enters final ↔ t.Enters l.final) ∧ (t₃.Leaves n₂.start ↔ t₂.Leaves n₂.start) := by
    have moved := fun {src dest} (moves : MovesEpsilons t' t₃ src dest) => pending.move moves old
    cases removes with
    | redirected alone arc allocated nfa epsilons =>
      have other : n₂.start ≠ lastL := by
        intro same
        obtain ⟨b, q, taken⟩ := joined.busy same.symm
        exact alone _ _ ((arc' _ _ _).mpr (same ▸ taken))
      refine ⟨?_, ?_, ?_, ?_, ?_⟩
      · rw [nfa]
        exact if_neg other
      · rw [nfa]
        exact joined.finalState
      · have moved := moved epsilons
        simpa [joined.leftNot.symm] using moved
      · rw [← joined.enters]
        constructor
        · rintro ⟨p, b, taken⟩
          rcases (arc _ _ _).mp taken with ⟨taken, -⟩ | ⟨taken, -⟩
          · exact absurd ⟨p, b, (arc' _ _ _).mp taken⟩ joined.unreached
          · exact ⟨p, b, (arc' _ _ _).mp taken⟩
        · rintro ⟨p, b, taken⟩
          exact ⟨p, b, (arc _ _ _).mpr (.inr ⟨(arc' _ _ _).mpr taken, rfl⟩)⟩
      · constructor
        · rintro ⟨b, q, taken⟩
          rcases (arc _ _ _).mp taken with ⟨taken, -⟩ | ⟨taken, -⟩
          · exact ⟨b, q, (arc' _ _ _).mp taken⟩
          · exact ⟨b, _, (arc' _ _ _).mp taken⟩
        · rintro ⟨b, q, taken⟩
          by_cases here : q = lastL
          · exact ⟨b, final, (arc _ _ _).mpr (.inr ⟨(arc' _ _ _).mpr (here ▸ taken), rfl⟩)⟩
          · exact ⟨b, q, (arc _ _ _).mpr (.inl ⟨(arc' _ _ _).mpr taken, here⟩)⟩
    | resourced leaves alone arc allocated nfa epsilons =>
      exact absurd ((epsilon' _ _).mpr ⟨rfl, rfl⟩) (alone _ _)
    | duplicated leaves enters arc allocated nfa epsilons =>
      have some_arc : ∀ p b q, t₃.Arc p (some b) q ↔
          t₂.Arc p (some b) q ∨ t₂.Arc p (some b) lastL ∧ q = final := by
        intro p b q
        rw [arc]
        simp [Forked, Duplicated, arc', joined.dead]
      refine ⟨?_, ?_, ?_, ?_, ?_⟩
      · rw [nfa]
      · rw [nfa]
        exact joined.finalState
      · have moved := moved epsilons
        simpa using moved
      · rw [← joined.enters]
        constructor
        · rintro ⟨p, b, taken⟩
          rcases (some_arc _ _ _).mp taken with taken | ⟨taken, -⟩
          · exact absurd ⟨p, b, taken⟩ joined.unreached
          · exact ⟨p, b, taken⟩
        · rintro ⟨p, b, taken⟩
          exact ⟨p, b, (some_arc _ _ _).mpr (.inr ⟨taken, rfl⟩)⟩
      · constructor
        · rintro ⟨b, q, taken⟩
          rcases (some_arc _ _ _).mp taken with taken | ⟨taken, -⟩
          · exact ⟨b, q, taken⟩
          · exact ⟨b, _, taken⟩
        · rintro ⟨b, q, taken⟩
          exact ⟨b, q, (some_arc _ _ _).mpr (.inl taken)⟩
  obtain ⟨startState, finalState, pending₃, enters, leaves⟩ := stage
  obtain ⟨n₄, t'', t₄, run₄, sound₄, silenced', pending', old'', -, removes'⟩ :=
    sound₃.removeEpsilon n₃ pending₃ joined.rightNot (by simp)
  have arc'' : ∀ p b q, t''.Arc p (some b) q ↔ t₃.Arc p (some b) q := by
    intro p b q
    rw [silenced']
    simp [Silenced]
  have loud'' : ∀ p q, ¬t''.Arc p none q := by
    intro p q
    rw [pending'.arc]
    simp
  refine ⟨n₃, t₃, n₄, t₄, run₃, run₄, ?_⟩
  refine { sound := sound₄, loud := ?_, flag := ?_, merged := ?_, path := ?_ }
  · rintro p q ⟨e, live, -, null, -⟩
    obtain ⟨live', null'⟩ := old'' e live null
    exact loud'' _ _ ⟨e, live', rfl, null', rfl⟩
  · rw [← joined.flag, ← flag]
    exact removes'.flag
  · have startNot : n₃.start ≠ final := startState ▸ joined.startNot
    have leaves₂ : ∀ {q}, (∃ x q', t''.Arc q x q') ↔ t₃.Leaves q := by
      intro q
      constructor
      · rintro ⟨x, q', taken⟩
        cases x with
        | none => exact absurd taken (loud'' _ _)
        | some b => exact ⟨b, q', (arc'' _ _ _).mp taken⟩
      · rintro ⟨b, q', taken⟩
        exact ⟨_, q', (arc'' _ _ _).mpr taken⟩
    have enters₂ : ∀ {q}, (∃ p x, t''.Arc p x q) ↔ t₃.Enters q := by
      intro q
      constructor
      · rintro ⟨p, x, taken⟩
        cases x with
        | none => exact absurd taken (loud'' _ _)
        | some b => exact ⟨p, b, (arc'' _ _ _).mp taken⟩
      · rintro ⟨p, b, taken⟩
        exact ⟨p, _, (arc'' _ _ _).mpr taken⟩
    have branch : n₄.start = n₄.final ↔
        lastR = n₃.start ∧ (¬t₃.Leaves lastR ∨ ¬t₃.Enters final) := by
      cases removes' with
      | redirected alone arc allocated nfa epsilons =>
        have idle : ¬t₃.Leaves lastR := by
          rw [← leaves₂]
          rintro ⟨x, q, taken⟩
          exact alone x q taken
        rw [nfa]
        show (if n₃.start = lastR then final else n₃.start) = n₃.final ↔ _
        rw [finalState]
        by_cases here : n₃.start = lastR
        · simp [here, idle]
        · simp [here, Ne.symm here, startNot]
      | resourced leaves alone arc allocated nfa epsilons =>
        have unentered : ¬t₃.Enters final := by
          rw [← enters₂]
          rintro ⟨p, x, taken⟩
          exact alone p x taken
        rw [nfa]
        show n₃.start = (if n₃.final = final then lastR else n₃.final) ↔ _
        rw [if_pos finalState]
        exact ⟨fun same => ⟨same.symm, .inr unentered⟩, fun same => same.1.symm⟩
      | duplicated leaves enters arc allocated nfa epsilons =>
        rw [nfa, finalState]
        refine ⟨fun same => absurd same startNot, ?_⟩
        rintro ⟨-, idle | unentered⟩
        · exact absurd (leaves₂.mp leaves) idle
        · exact absurd (enters₂.mp enters) unentered
    rw [branch, startState, joined.merged, enters]
    constructor
    · rintro ⟨⟨same, apart⟩, idle | unentered⟩
      · have here := joined.merged.mpr ⟨same, apart⟩
        rw [here, leaves, joined.leaves here, not_or] at idle
        exact ⟨same, apart, .inl idle⟩
      · exact ⟨same, apart, .inr unentered⟩
    · rintro ⟨same, apart, idle | unentered⟩
      · have here := joined.merged.mpr ⟨same, apart⟩
        rw [here, leaves, joined.leaves here, not_or]
        exact ⟨⟨same, apart⟩, .inl idle⟩
      · exact ⟨⟨same, apart⟩, .inr unentered⟩
  · intro bs nonempty
    rw [removes'.path_iff (finalState ▸ joined.rightNot.symm) (startState ▸ joined.startNot) (fun q => loud'' _ _)
      (fun q taken => absurd taken (loud'' _ _)) nonempty, ← finalState, ← Path.congr (finalState ▸ silenced')]
    exact path₃ bs nonempty

end Tables

end Ghdl.Psl
