import Mathlib.Data.List.Forall2

/-!
# Paths through transition systems with silent steps

A step reads a letter or is silent. `Path step s w t` says that the system goes from S to T and reads the
word W on the way.

A silent step from S to D is removed in one of three ways. `Silenced step s d` is the system with the
silent step, and each way is a system without it: the steps to S are led to D, the steps from D
leave S, or both kinds of steps are duplicated. The first two lose nothing. The last one loses the
paths that only go from S to D, and says so.
-/

namespace Automata

variable {σ τ α β : Type*}

/-- The system goes from one state to another one and reads the word on the way. -/
inductive Path (step : σ → Option α → σ → Prop) : σ → List α → σ → Prop
  /-- No step. -/
  | nil (s : σ) : Path step s [] s
  /-- A silent step first. -/
  | silent {s t u : σ} {w : List α} (first : step s none t) (rest : Path step t w u) :
      Path step s w u
  /-- A letter is read first. -/
  | letter {s t u : σ} {a : α} {w : List α} (first : step s (some a) t) (rest : Path step t w u) :
      Path step s (a :: w) u

namespace Path

variable {step step' : σ → Option α → σ → Prop} {s t u : σ} {v w : List α} {a : α}

/-- Paths are joined. -/
theorem trans (first : Path step s v t) (second : Path step t w u) : Path step s (v ++ w) u := by
  induction first with
  | nil => exact second
  | silent step _ ih => exact .silent step (ih second)
  | letter step _ ih => exact .letter step (ih second)

/-- One letter is a path. -/
theorem single (step' : step s (some a) t) : Path step s [a] t := .letter step' (.nil t)

/-- One step is a path. -/
theorem one {o : Option α} (step' : step s o t) : Path step s o.toList t := by
  cases o with
  | none => exact .silent step' (.nil t)
  | some a => exact .single step'

theorem reversed (path : Path step s w t) : Path (fun p o q => step q o p) t w.reverse s := by
  induction path with
  | nil s => exact .nil s
  | @silent s t u w first rest ih =>
    have whole := ih.trans (.one first)
    rwa [Option.toList_none, List.append_nil] at whole
  | letter first rest ih =>
    rw [List.reverse_cons]
    exact ih.trans (.single first)

theorem reversed_iff : Path step s w t ↔ Path (fun p o q => step q o p) t w.reverse s := by
  constructor
  · exact reversed
  · intro path
    have again := path.reversed
    rwa [List.reverse_reverse] at again

/-- A path that reads two words goes through a state between them. -/
theorem split (path : Path step s (v ++ w) u) : ∃ t, Path step s v t ∧ Path step t w u := by
  generalize whole : v ++ w = x at path
  induction path generalizing v with
  | nil s =>
    obtain ⟨rfl, rfl⟩ := List.append_eq_nil_iff.mp whole
    exact ⟨s, .nil s, .nil s⟩
  | silent first _ ih =>
    obtain ⟨t, before, after⟩ := ih whole
    exact ⟨t, .silent first before, after⟩
  | @letter s t u a x first rest ih =>
    cases v with
    | nil =>
      have whole : w = a :: x := whole
      exact ⟨s, .nil s, whole ▸ .letter first rest⟩
    | cons b v =>
      rw [List.cons_append] at whole
      obtain ⟨rfl, same⟩ := List.cons.inj whole
      obtain ⟨t, before, after⟩ := ih same
      exact ⟨t, .letter first before, after⟩

/-- A path follows a map of the states under which every step is a path. -/
theorem lift {step' : τ → Option α → τ → Prop} (f : σ → τ) (path : Path step s w t)
    (steps : ∀ p o q, step p o q → Path step' (f p) o.toList (f q)) : Path step' (f s) w (f t) := by
  induction path with
  | nil s => exact .nil (f s)
  | silent first _ ih | letter first _ ih => exact (steps _ _ _ first).trans ih

/-- A system with more steps has more paths. -/
theorem mono (path : Path step s w t) (steps : ∀ p o q, step p o q → step' p o q) : Path step' s w t := by
  induction path with
  | nil s => exact .nil s
  | silent first _ ih => exact .silent (steps _ _ _ first) ih
  | letter first _ ih => exact .letter (steps _ _ _ first) ih

/-- Paths depend on the steps only. -/
theorem congr (steps : ∀ p o q, step p o q ↔ step' p o q) : Path step s w t ↔ Path step' s w t :=
  ⟨fun path => path.mono fun p o q => (steps p o q).mp, fun path => path.mono fun p o q => (steps p o q).mpr⟩

/-- A path does not leave a region that no step leaves. -/
theorem stays {region : σ → Prop} (path : Path step s w t) (inside : region s)
    (closed : ∀ p o q, region p → step p o q → region q) : region t := by
  induction path with
  | nil => exact inside
  | silent first _ ih | letter first _ ih => exact ih (closed _ _ _ inside first)

/-- In a region that no step leaves, paths depend on the steps from the region only. -/
theorem congr_inside {region : σ → Prop} (inside : region s) (closed : ∀ p o q, region p → step p o q → region q)
    (steps : ∀ p o q, region p → (step p o q ↔ step' p o q)) : Path step s w t ↔ Path step' s w t := by
  constructor
  · intro path
    induction path with
    | nil s => exact .nil s
    | silent first _ ih => exact .silent ((steps _ _ _ inside).mp first) (ih (closed _ _ _ inside first))
    | letter first _ ih => exact .letter ((steps _ _ _ inside).mp first) (ih (closed _ _ _ inside first))
  · intro path
    induction path with
    | nil s => exact .nil s
    | silent first _ ih =>
      have first := (steps _ _ _ inside).mpr first
      exact .silent first (ih (closed _ _ _ inside first))
    | letter first _ ih =>
      have first := (steps _ _ _ inside).mpr first
      exact .letter first (ih (closed _ _ _ inside first))

/-- From a state that no step leaves only the empty word is read. -/
theorem of_dead (path : Path step s w t) (dead : ∀ o q, ¬step s o q) : w = [] ∧ s = t := by
  cases path with
  | nil => exact ⟨rfl, rfl⟩
  | silent first _ | letter first _ => exact absurd first (dead _ _)

section

variable (loud : ∀ p q, ¬step p none q)
include loud

theorem nil_iff : Path step s [] t ↔ s = t := by
  constructor
  · intro path
    cases path with
    | nil => rfl
    | silent first _ => exact absurd first (loud _ _)
  · rintro rfl
    exact .nil s

theorem cons_iff :
    Path step s (a :: w) u ↔ ∃ t, step s (some a) t ∧ Path step t w u := by
  constructor
  · intro path
    cases path with
    | silent first _ => exact absurd first (loud _ _)
    | letter first rest => exact ⟨_, first, rest⟩
  · rintro ⟨t, first, rest⟩
    exact .letter first rest

theorem snoc_iff :
    Path step s (w ++ [a]) u ↔ ∃ t, Path step s w t ∧ step t (some a) u := by
  constructor
  · intro path
    obtain ⟨t, before, after⟩ := path.split
    obtain ⟨u', last, rest⟩ := (cons_iff loud).mp after
    obtain rfl := (nil_iff loud).mp rest
    exact ⟨t, before, last⟩
  · rintro ⟨t, before, last⟩
    exact before.trans (.single last)

end

end Path

/-- The letters are read through a relation: a step that reads A reads every letter it is related to. -/
def Related (related : α → β → Prop) (step : σ → Option α → σ → Prop) (p : σ) (o : Option β) (q : σ) :
    Prop :=
  match o with
  | none => step p none q
  | some b => ∃ a, step p (some a) q ∧ related a b

theorem path_related {related : α → β → Prop} {step : σ → Option α → σ → Prop} {p q : σ} {w : List β} :
    Path (Related related step) p w q ↔ ∃ v, Path step p v q ∧ List.Forall₂ related v w := by
  constructor
  · intro path
    induction path with
    | nil p => exact ⟨[], .nil p, .nil⟩
    | silent first _ ih =>
      obtain ⟨v, path, letters⟩ := ih
      exact ⟨v, .silent first path, letters⟩
    | letter first _ ih =>
      obtain ⟨a, first, letter⟩ := first
      obtain ⟨v, path, letters⟩ := ih
      exact ⟨a :: v, .letter first path, .cons letter letters⟩
  · rintro ⟨v, path, letters⟩
    induction path generalizing w with
    | nil p =>
      cases letters
      exact .nil p
    | silent first _ ih => exact .silent first (ih letters)
    | letter first _ ih =>
      cases letters with
      | cons letter letters => exact .letter ⟨_, first, letter⟩ (ih letters)

/-- The system with a silent step from S to D. -/
def Silenced (step : σ → Option α → σ → Prop) (s d : σ) (p : σ) (o : Option α) (q : σ) : Prop :=
  step p o q ∨ p = s ∧ o = none ∧ q = d

/-- The steps to S lead to D. -/
def Redirected (step : σ → Option α → σ → Prop) (s d : σ) (p : σ) (o : Option α) (q : σ) : Prop :=
  step p o q ∧ q ≠ s ∨ step p o s ∧ q = d

/-- The steps from D leave S. -/
def Resourced (step : σ → Option α → σ → Prop) (s d : σ) (p : σ) (o : Option α) (q : σ) : Prop :=
  step p o q ∧ p ≠ d ∨ step d o q ∧ p = s

/-- The steps to S that read a letter lead to D too. -/
def Duplicated (step : σ → Option α → σ → Prop) (s d : σ) (p : σ) (o : Option α) (q : σ) : Prop :=
  step p o q ∨ step p o s ∧ o ≠ none ∧ q = d

/-- The steps from D that read a letter leave S too. -/
def Forked (step : σ → Option α → σ → Prop) (s d : σ) (p : σ) (o : Option α) (q : σ) : Prop :=
  step p o q ∨ step d o q ∧ o ≠ none ∧ p = s

variable {step : σ → Option α → σ → Prop} {s d p q : σ} {w : List α}

/-- When the silent step is the only one from S, the steps to S may lead to D. -/
theorem path_redirected (alone : ∀ o r, ¬step s o r) (target : q ≠ s) : Path (Silenced step s d) p w q ↔
      (p ≠ s ∧ Path (Redirected step s d) p w q) ∨ p = s ∧ Path (Redirected step s d) d w q := by
  classical
  let via : σ → σ := fun r => if r = s then d else r
  have via_s : via s = d := if_pos rfl
  have via_ne : ∀ {r}, r ≠ s → via r = r := fun other => if_neg other
  have main : Path (Silenced step s d) p w q → Path (Redirected step s d) (via p) w q := by
    intro path
    have steps : ∀ p o r, Silenced step s d p o r →
        Path (Redirected step s d) (via p) o.toList (via r) := by
      intro p o r move
      rcases move with move | ⟨rfl, rfl, rfl⟩
      · have other : p ≠ s := fun same => alone o r (same ▸ move)
        rw [via_ne other]
        have taken : Redirected step s d p o (via r) := by
          by_cases here : r = s
          · rw [here, via_s]
            exact .inr ⟨here ▸ move, rfl⟩
          · rw [via_ne here]
            exact .inl ⟨move, here⟩
        exact .one taken
      · rw [via_s]
        have back : via r = r := by
          by_cases here : r = p
          · rw [here, via_s]
            exact here
          · exact via_ne here
        rw [back]
        exact .nil _
    have lifted := path.lift via steps
    rwa [via_ne target] at lifted
  have back : ∀ {r}, Path (Redirected step s d) r w q → Path (Silenced step s d) r w q := by
    intro r path
    refine path.lift id fun p o r move => ?_
    rcases move with ⟨move, -⟩ | ⟨move, rfl⟩
    · exact .one (.inl move)
    · have silent : Path (Silenced step s r) s [] r := .silent (.inr ⟨rfl, rfl, rfl⟩) (.nil _)
      cases o with
      | none => exact .silent (.inl move) silent
      | some a => exact .letter (.inl move) silent
  constructor
  · intro path
    by_cases here : p = s
    · have moved := main path
      rw [here, via_s] at moved
      exact .inr ⟨here, moved⟩
    · have moved := main path
      rw [via_ne here] at moved
      exact .inl ⟨here, moved⟩
  · rintro (⟨-, path⟩ | ⟨rfl, path⟩)
    · exact back path
    · exact .silent (.inr ⟨rfl, rfl, rfl⟩) (back path)

/-- When the silent step is the only one to D, the steps from D may leave S. -/
theorem path_resourced (alone : ∀ r o, ¬step r o d) (source : p ≠ d) : Path (Silenced step s d) p w q ↔
      (q ≠ d ∧ Path (Resourced step s d) p w q) ∨ q = d ∧ Path (Resourced step s d) p w s := by
  let back : σ → Option α → σ → Prop := fun p o q => step q o p
  have silenced : (fun p o q => Silenced step s d q o p) = Silenced back d s := by
    funext p o q
    exact propext (or_congr Iff.rfl ⟨fun ⟨left, silent, right⟩ => ⟨right, silent, left⟩,
      fun ⟨left, silent, right⟩ => ⟨right, silent, left⟩⟩)
  have resourced : ∀ {r}, Path (Resourced step s d) p w r ↔ Path (Redirected back d s) r w.reverse p := Path.reversed_iff
  rw [Path.reversed_iff, silenced, resourced, resourced]
  exact path_redirected (fun o r => alone r o) source

theorem path_of_duplicated (path : Path (Forked (Duplicated step s d) s d) p w q) : Path (Silenced step s d) p w q := by
  have duplicated : ∀ p o q, Duplicated step s d p o q → Path (Silenced step s d) p o.toList q := by
    intro p o q move
    rcases move with move | ⟨move, loud, rfl⟩
    · exact .one (.inl move)
    · cases o with
      | none => exact absurd rfl loud
      | some a => exact .letter (.inl move) (.silent (.inr ⟨rfl, rfl, rfl⟩) (.nil _))
  refine path.lift id fun p o q move => ?_
  rcases move with move | ⟨move, -, rfl⟩
  · exact duplicated p o q move
  · exact .silent (.inr ⟨rfl, rfl, rfl⟩) (duplicated d o q move)

/-- Duplicating steps loses only the paths whose silent step is not next to a letter: those that start
with it, and end with it or go on with another silent step. -/
theorem path_duplicated (quiet : ∀ r, ¬step r none s) (path : Path (Silenced step s d) p w q) :
    Path (Forked (Duplicated step s d) s d) p w q ∨ p = s ∧ (w = [] ∧ q = d ∨
        ∃ r, step d none r ∧ Path (Forked (Duplicated step s d) s d) r w q) := by
  induction path with
  | nil p => exact .inl (.nil p)
  | @silent p t q w first rest ih =>
    rcases first with first | ⟨rfl, -, rfl⟩
    · rcases ih with rest' | ⟨rfl, -⟩
      · exact .inl (.silent (.inl (.inl first)) rest')
      · exact absurd first (quiet p)
    -- The silent step itself: what follows it decides.
    rcases ih with rest' | ⟨-, lost⟩
    · cases rest' with
      | nil => exact .inr ⟨rfl, .inl ⟨rfl, rfl⟩⟩
      | @silent _ r _ _ next rest' =>
        rcases next with (next | ⟨-, loud, -⟩) | ⟨-, loud, -⟩
        · exact .inr ⟨rfl, .inr ⟨r, next, rest'⟩⟩
        all_goals exact absurd rfl loud
      | letter next rest' =>
        rcases next with next | ⟨next, loud, rfl⟩
        all_goals exact .inl (.letter (.inr ⟨next, by simp, rfl⟩) rest')
    · exact .inr ⟨rfl, lost⟩
  | @letter p t q a w first rest ih =>
    rcases first with first | ⟨-, impossible, -⟩
    · rcases ih with rest' | ⟨rfl, ⟨rfl, rfl⟩ | ⟨r, next, rest'⟩⟩
      · exact .inl (.letter (.inl (.inl first)) rest')
      · exact .inl (.single (.inl (.inr ⟨first, by simp, rfl⟩)))
      · exact .inl (.letter (.inl (.inr ⟨first, by simp, rfl⟩)) (.silent (.inl (.inl next)) rest'))
    · exact absurd impossible (by simp)

end Automata
