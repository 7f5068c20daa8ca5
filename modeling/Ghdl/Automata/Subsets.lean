import Mathlib.Data.List.Induction
import Mathlib.Data.Set.Basic
import Ghdl.Automata.Path

/-!
# Failure of a system

The sets of states in which a system can be, from one letter to the next. A set is followed as long as the
system has not reached its last state; the system fails when the set gets empty. A set of states that no step
leaves, whatever the letter, may be given up before: then the failure is never seen.
-/

namespace Automata

variable {σ α : Type*} {step : σ → Option α → σ → Prop} {s f p q : σ} {w u v : List α} {a : α}
  {here there : Set σ} {o : Option α} {busy : σ → Prop}

/-- The states after the word. -/
def active (step : σ → Option α → σ → Prop) (s : σ) (w : List α) : Set σ := {q | Path step s w q}

/-- The states one letter later. -/
def next (step : σ → Option α → σ → Prop) (here : Set σ) (a : α) : Set σ :=
  {q | ∃ p ∈ here, step p (some a) q}

/-- A set of states is followed when one of them is busy, and the last state is not reached. -/
def SubsetStep (step : σ → Option α → σ → Prop) (busy : σ → Prop) (f : σ) (here : Set σ) (o : Option α)
    (there : Set σ) : Prop :=
  ∃ a, o = some a ∧ (∃ p ∈ here, busy p) ∧ f ∉ next step here a ∧ there = next step here a

/-- After a letter or more, the last state is reached by a part of the word. -/
def Passed (step : σ → Option α → σ → Prop) (s f : σ) (w : List α) : Prop :=
  ∃ u, u <+: w ∧ u ≠ [] ∧ Path step s u f

theorem SubsetStep.loud (here there : Set σ) : ¬SubsetStep step busy f here none there := by
  rintro ⟨a, impossible, -⟩
  cases impossible

theorem active_nil (loud : ∀ p q, ¬step p none q) : active step s [] = {s} := by
  ext q
  show Path step s [] q ↔ q = s
  rw [Path.nil_iff loud]
  exact eq_comm

theorem active_snoc (loud : ∀ p q, ¬step p none q) : active step s (w ++ [a]) = next step (active step s w) a := by
  ext q
  exact Path.snoc_iff loud

theorem mem_active : q ∈ active step s w ↔ Path step s w q := Iff.rfl

theorem active_of_part (prefixed : u <+: w) (nonempty : (active step s w).Nonempty) : (active step s u).Nonempty := by
  obtain ⟨q, path⟩ := nonempty
  obtain ⟨v, rfl⟩ := prefixed
  obtain ⟨p, before, -⟩ := Path.split path
  exact ⟨p, before⟩

theorem forall_prefix_snoc {P : List α → Prop} : (∀ u, u <+: w ++ [a] → P u) ↔ (∀ u, u <+: w → P u) ∧ P (w ++ [a]) := by
  constructor
  · intro all
    exact ⟨fun u prefixed => all u (prefixed.trans (List.prefix_append w [a])), all _ List.prefix_rfl⟩
  · rintro ⟨before, whole⟩ u prefixed
    rcases List.prefix_concat_iff.mp prefixed with same | prefixed
    · rw [same]
      exact whole
    · exact before u prefixed

/-- The set after a word is the set of active states, when the last state was not reached and a busy state
was active before each letter. -/
theorem path_subset_iff (loud : ∀ p q, ¬step p none q) : Path (SubsetStep step busy f) {s} w there ↔
      there = active step s w ∧ ¬Passed step s f w ∧ ∀ u, u <+: w → u ≠ w → ∃ p ∈ active step s u, busy p := by
  induction w using List.reverseRecOn generalizing there with
  | nil =>
    rw [Path.nil_iff SubsetStep.loud, active_nil loud]
    constructor
    · rintro rfl
      refine ⟨rfl, ?_, fun u prefixed other => absurd (List.prefix_nil.mp prefixed) other⟩
      rintro ⟨u, prefixed, nonempty, -⟩
      exact nonempty (List.prefix_nil.mp prefixed)
    · rintro ⟨rfl, -⟩
      rfl
  | append_singleton w a ih =>
    have reached : Passed step s f (w ++ [a]) ↔ Passed step s f w ∨ f ∈ next step (active step s w) a := by
      constructor
      · rintro ⟨u, prefixed, nonempty, path⟩
        rcases List.prefix_concat_iff.mp prefixed with rfl | prefixed
        · exact .inr (active_snoc loud ▸ path)
        · exact .inl ⟨u, prefixed, nonempty, path⟩
      · rintro (⟨u, prefixed, nonempty, path⟩ | member)
        · exact ⟨u, prefixed.trans (List.prefix_append w [a]), nonempty, path⟩
        · rw [← active_snoc loud] at member
          exact ⟨w ++ [a], List.prefix_rfl, by simp, member⟩
    have before : (∀ u, u <+: w ++ [a] → u ≠ w ++ [a] → ∃ p ∈ active step s u, busy p) ↔
        (∀ u, u <+: w → u ≠ w → ∃ p ∈ active step s u, busy p) ∧ ∃ p ∈ active step s w, busy p := by
      rw [forall_prefix_snoc]
      constructor
      · rintro ⟨all, -⟩
        refine ⟨fun u prefixed _ => all u prefixed fun same => ?_, all w List.prefix_rfl (by simp)⟩
        have length := prefixed.length_le
        rw [same, List.length_append, List.length_singleton] at length
        omega
      · rintro ⟨all, whole⟩
        refine ⟨fun u prefixed _ => ?_, fun other => absurd rfl other⟩
        by_cases same : u = w
        · rw [same]
          exact whole
        · exact all u prefixed same
    rw [Path.snoc_iff SubsetStep.loud, reached, before, active_snoc loud]
    constructor
    · rintro ⟨here, path, b, same, some_busy, other, rfl⟩
      cases same
      obtain ⟨rfl, unreached, earlier⟩ := ih.mp path
      exact ⟨rfl, fun either => either.elim unreached other, earlier, some_busy⟩
    · rintro ⟨rfl, unreached, earlier, some_busy⟩
      rw [not_or] at unreached
      exact ⟨active step s w, ih.mpr ⟨rfl, unreached.1, earlier⟩, a, rfl, some_busy, unreached.2, rfl⟩

theorem Passed.mono (reached : Passed step s f u) (prefixed : u <+: w) : Passed step s f w := by
  obtain ⟨v, before, nonempty, path⟩ := reached
  exact ⟨v, before.trans prefixed, nonempty, path⟩

theorem next_idle (moves : ∀ {p a q}, step p (some a) q → busy p) (idle : ¬∃ p ∈ here, busy p) :
    next step here a = ∅ := by
  ext q
  constructor
  · rintro ⟨p, inside, move⟩
    exact absurd ⟨p, inside, moves move⟩ idle
  · exact False.elim

/-- The system fails with this letter: no state is active any more, the last state was not reached, and the
system did not fail before. -/
def Fails (step : σ → Option α → σ → Prop) (s f : σ) (w : List α) : Prop :=
  ¬Passed step s f w ∧ active step s w = ∅ ∧ ∀ u, u <+: w → u ≠ w → (active step s u).Nonempty

/-- Every failure is seen exactly when no set is given up: where a state is active and the last state was not
reached, a busy state is active. -/
theorem path_subset_fails_iff [Nonempty α] (loud : ∀ p q, ¬step p none q)
    (moves : ∀ {p a q}, step p (some a) q → busy p) : (∀ w, Path (SubsetStep step busy f) {s} w ∅ ↔ Fails step s f w) ↔
      ∀ u, ¬Passed step s f u → (active step s u).Nonempty → ∃ p ∈ active step s u, busy p := by
  constructor
  · intro same u unreached nonempty
    by_contra idle
    obtain ⟨a⟩ := (inferInstance : Nonempty α)
    have dead : active step s (u ++ [a]) = ∅ := by
      rw [active_snoc loud]
      exact next_idle moves idle
    have unreached' : ¬Passed step s f (u ++ [a]) := by
      rintro ⟨v, prefixed, more, path⟩
      rcases List.prefix_concat_iff.mp prefixed with rfl | prefixed
      · have member : f ∈ active step s (u ++ [a]) := path
        rw [dead] at member
        exact member
      · exact unreached ⟨v, prefixed, more, path⟩
    have fails : Fails step s f (u ++ [a]) := by
      refine ⟨unreached', dead, fun v prefixed other => ?_⟩
      rcases List.prefix_concat_iff.mp prefixed with same | prefixed
      · exact absurd same other
      · exact active_of_part prefixed nonempty
    obtain ⟨-, -, earlier⟩ := (path_subset_iff loud).mp ((same _).mpr fails)
    exact idle (earlier u (List.prefix_append u [a]) (by simp))
  · intro condition w
    rw [path_subset_iff loud]
    constructor
    · rintro ⟨dead, unreached, earlier⟩
      refine ⟨unreached, dead.symm, fun u prefixed other => ?_⟩
      obtain ⟨p, member, -⟩ := earlier u prefixed other
      exact ⟨p, member⟩
    · rintro ⟨unreached, dead, earlier⟩
      refine ⟨dead.symm, unreached, fun u prefixed other => ?_⟩
      exact condition u (fun reached => unreached (reached.mono prefixed)) (earlier u prefixed other)

/-- No failure is seen exactly when no set gets empty by a letter, where a state is busy and the last state
is not reached. -/
theorem path_subset_never_iff (loud : ∀ p q, ¬step p none q) (moves : ∀ {p a q}, step p (some a) q → busy p) :
    (∀ w, ¬Path (SubsetStep step busy f) {s} w ∅) ↔
      ∀ u a, ¬Passed step s f (u ++ [a]) → (∃ p ∈ active step s u, busy p) → (active step s (u ++ [a])).Nonempty := by
  constructor
  · intro never u a unreached some_busy
    by_contra empty
    rw [Set.not_nonempty_iff_eq_empty] at empty
    refine never (u ++ [a]) ((path_subset_iff loud).mpr ⟨empty.symm, unreached, fun v prefixed other => ?_⟩)
    rcases List.prefix_concat_iff.mp prefixed with same | ⟨rest, rfl⟩
    · exact absurd same other
    cases rest with
    | nil =>
      rw [List.append_nil] at some_busy
      exact some_busy
    | cons b rest =>
      obtain ⟨p, member, -⟩ := some_busy
      obtain ⟨q, before, after⟩ := Path.split (mem_active.mp member)
      obtain ⟨r, move, -⟩ := (Path.cons_iff loud).mp after
      exact ⟨q, before, moves move⟩
  · intro condition w path
    obtain ⟨dead, unreached, earlier⟩ := (path_subset_iff loud).mp path
    cases w using List.reverseRecOn with
    | nil =>
      have member : s ∈ active step s [] := .nil s
      rw [← dead] at member
      exact member
    | append_singleton u a =>
      have some_busy := earlier u (List.prefix_append u [a]) (by simp)
      have nonempty := condition u a unreached some_busy
      rw [← dead] at nonempty
      exact Set.not_nonempty_empty nonempty

end Automata
