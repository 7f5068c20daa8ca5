import Ghdl.Automata.Path

/-!
# Parallel steps

Steps are removed because a step from the first state reads the same letters and leads to the same state.
The words from the first state to a last one are kept exactly when the first state stands in for the
sources of the removed steps, where they are needed.
-/

namespace Automata

variable {σ α : Type*} {step kept lost : σ → Option α → σ → Prop} {s f p q : σ} {w : List α}

/-- Every step is kept or lost, and a step from the first state is kept next to each one that is lost. -/
structure Parallel (step kept lost : σ → Option α → σ → Prop) (s : σ) : Prop where
  kept_or_lost : ∀ {p o q}, step p o q ↔ kept p o q ∨ lost p o q
  beside : ∀ {p o q}, lost p o q → kept s o q
  loud : ∀ p q, ¬step p none q

namespace Parallel

section

variable (parallel : Parallel step kept lost s)
include parallel

theorem mono (path : Path kept p w q) : Path step p w q :=
  path.mono fun _ _ _ move => parallel.kept_or_lost.mpr (.inl move)

/-- A path takes kept steps only, or kept steps only after a last step that is lost. -/
theorem last_lost (path : Path step p w q) :
    Path kept p w q ∨ ∃ u r a r' v, Path step p u r ∧ lost r (some a) r' ∧ Path kept r' v q ∧ w = u ++ a :: v := by
  induction path with
  | nil p => exact .inl (.nil p)
  | silent first _ _ => exact absurd first (parallel.loud _ _)
  | @letter p t q a w first rest ih =>
    rcases ih with path | ⟨u, r, b, r', v, before, gone, after, rfl⟩
    · rcases parallel.kept_or_lost.mp first with first | gone
      · exact .inl (.letter first path)
      · exact .inr ⟨[], p, a, t, w, .nil p, gone, path, rfl⟩
    · exact .inr ⟨a :: u, r, b, r', v, .letter first before, gone, after, rfl⟩

/-- The words are kept exactly when, wherever a step that is lost is taken on the way to the last state, the
first state is active before it too, or the word is read without it. -/
theorem path_iff : (∀ w, Path kept s w f ↔ Path step s w f) ↔
      ∀ u p a q v, Path step s u p → lost p (some a) q → Path step q v f →
        Path step s u s ∨ Path kept s (u ++ a :: v) f := by
  constructor
  · intro same u p a q v before gone after
    have move : step p (some a) q := parallel.kept_or_lost.mpr (.inr gone)
    exact .inr ((same _).mpr (before.trans (.letter move after)))
  intro condition
  -- The words before the last step that is lost get shorter.
  have main : ∀ n u r a r' v, u.length = n → Path step s u r → lost r (some a) r' →
      Path kept r' v f → Path kept s (u ++ a :: v) f := by
    intro n
    induction n using Nat.strongRecOn with
    | ind n ih =>
      intro u r a r' v length before gone after
      rcases condition u r a r' v before gone (parallel.mono after) with active | done
      · rcases parallel.last_lost active with path | ⟨u₁, r₁, b, r₁', v₁, before₁, gone₁, after₁, rfl⟩
        · exact path.trans (.letter (parallel.beside gone) after)
        have shorter : u₁.length < n := by
          rw [← length, List.length_append, List.length_cons]
          omega
        have whole := ih u₁.length shorter u₁ r₁ b r₁' (v₁ ++ a :: v) rfl before₁ gone₁
          (after₁.trans (.letter (parallel.beside gone) after))
        rwa [List.append_assoc]
      · exact done
  intro w
  constructor
  · exact parallel.mono
  · intro path
    rcases parallel.last_lost path with path | ⟨u, r, a, r', v, before, gone, after, rfl⟩
    · exact path
    · exact main u.length u r a r' v rfl before gone after

end

end Parallel

end Automata
