import Ghdl.Psl.Alternation
import Ghdl.Psl.Repetition

/-!
# Union of languages

What `Build_Or` returns. Every word that is not empty is accepted exactly when an operand accepts it; the
empty word is the hard case, as an operand accepts it in one of two ways.
-/

namespace Ghdl.Psl

open Automata

namespace Tables

variable {t t' : Tables} {l r n : Nfa} {p q : NfaState} {x : Option BoolNode} {bs : List BoolNode}
  {w : List Valuation}

theorem either_step_iff : (∃ bs, Either t l r bs ∧ List.Forall₂ Holds bs w) ↔
      Path t.Step l.start w l.final ∨ Path t.Step r.start w r.final := by
  rw [path_step_iff, path_step_iff]
  constructor
  · rintro ⟨bs, path | path, letters⟩
    · exact .inl ⟨bs, path, letters⟩
    · exact .inr ⟨bs, path, letters⟩
  · rintro (⟨bs, path, letters⟩ | ⟨bs, path, letters⟩)
    · exact ⟨bs, .inl path, letters⟩
    · exact ⟨bs, .inr path, letters⟩

theorem Finished.path_step (finished : Finished t l r n t') (nonempty : w ≠ []) : Path t'.Step n.start w n.final ↔
      Path t.Step l.start w l.final ∨ Path t.Step r.start w r.final := by
  rw [← either_step_iff, path_step_iff]
  have some_expr : ∀ bs, List.Forall₂ Holds bs w → bs ≠ [] := by
    rintro bs letters rfl
    cases letters
    exact nonempty rfl
  constructor
  · rintro ⟨bs, path, letters⟩
    exact ⟨bs, (finished.path bs (some_expr bs letters)).mp path, letters⟩
  · rintro ⟨bs, path, letters⟩
    exact ⟨bs, (finished.path bs (some_expr bs letters)).mpr path, letters⟩

/-- Where no optimization applies, `Build_Or` removes the four edges of the Thompson construction. -/
theorem Operands.buildOr_removes (operands : Operands t l r) (busy : l.start = l.final → t.Leaves l.start) :
    ∃ n t', t.buildOr l r = .ok (n, t') ∧ Finished t l r n t' := by
  obtain ⟨start, final, eSL, eSR, eLF, eRF, n, t₀, added, built⟩ := operands.thompson
  obtain ⟨last, n₁, t₁, run₁, opened⟩ := built.open operands busy
  obtain ⟨lastR, n₂, t₂, run₂, joined⟩ := opened.join operands
  obtain ⟨n₃, t₃, n₄, t₄, run₃, run₄, finished⟩ := joined.finish
  refine ⟨n₄, t₄, ?_, finished⟩
  have general : ¬(l.start = l.final ∧ t.srcEdges l.start = []) := by
    rintro ⟨same, none⟩
    exact (operands.sound.srcEdges_nil operands.loud).mp none (busy same)
  unfold Tables.buildOr
  rw [if_neg general, added]
  simp only [run₁, run₂, run₃, run₄, bind, Except.bind, pure, Except.pure]

/-- When the result of `Build_Or` accepts the empty word. -/
def OrAcceptsEmpty (t : Tables) (l r : Nfa) : Prop :=
  l.epsilon = true ∨ r.epsilon = true ∨
    r.start = r.final ∧ (t.srcEdges l.start = [] ∨ t.destEdges r.start = []) ∧
      (t.srcEdges l.start = [] ∧ t.srcEdges r.start = [] ∨ t.destEdges l.final = [])

/-- What `Build_Or` returns: the words that are not empty are those of the operands, and the empty word is
accepted where `OrAcceptsEmpty` says so or L is `[*0]`. -/
theorem Operands.buildOr (operands : Operands t l r) : ∃ n t', t.buildOr l r = .ok (n, t') ∧ t'.Sound ∧ t'.Loud ∧
      (∀ w, w ≠ [] → (t'.Accepts n w ↔ t.Accepts l w ∨ t.Accepts r w)) ∧
      (t'.Accepts n [] ↔ t.IsEmptyWord l ∨ t.OrAcceptsEmpty l r) := by
  have srcNil : ∀ p, t.srcEdges p = [] ↔ ¬t.Leaves p := fun _ =>
    operands.sound.srcEdges_nil operands.loud
  have destNil : ∀ p, t.destEdges p = [] ↔ ¬t.Enters p := fun _ =>
    operands.sound.destEdges_nil operands.loud
  by_cases empty : t.IsEmptyWord l
  · refine ⟨_, t, if_pos empty, operands.sound, operands.loud, fun w nonempty => ?_, ?_⟩
    · rw [empty.accepts operands.sound, accepts_iff_path nonempty, accepts_iff_path nonempty]
      by_cases different : r.start ≠ r.final
      all_goals simp [different, nonempty]
    rw [operands.loud.accepts_nil]
    by_cases different : r.start ≠ r.final
    · simp [different, empty]
    · simp [empty, not_not.mp different]
  have busy : l.start = l.final → t.Leaves l.start := by
    intro same
    by_contra idle
    exact empty ⟨same, (srcNil _).mpr idle⟩
  obtain ⟨n, t', run, finished⟩ := operands.buildOr_removes busy
  refine ⟨n, t', run, finished.sound, finished.loud, fun w nonempty => ?_, ?_⟩
  · rw [accepts_iff_path nonempty, accepts_iff_path nonempty, accepts_iff_path nonempty]
    exact finished.path_step nonempty
  rw [finished.loud.accepts_nil, finished.merged, finished.flag]
  unfold OrAcceptsEmpty
  simp only [srcNil, destNil, empty, false_or, Bool.or_eq_true]
  tauto

end Tables

end Ghdl.Psl
