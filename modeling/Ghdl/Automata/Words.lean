import Mathlib
import Ghdl.Automata.Path

/-!
# Words between two states

The words read from one state to another one are a language. A system is put into a loop in two ways: the
steps to the last state lead back to the first state, or steps to the first state are added. Both read
words of segments, and the algebra of languages says which.
-/

namespace Automata

open scoped Computability

variable {σ α : Type*} {step : σ → Option α → σ → Prop} {s f p q : σ} {w : List α}

/-- The words read from one state to another one. -/
def words (step : σ → Option α → σ → Prop) (p q : σ) : Language α := {w | Path step p w q}

theorem mem_words : w ∈ words step p q ↔ Path step p w q := Iff.rfl

theorem words_congr {step' : σ → Option α → σ → Prop} (steps : ∀ p o q, step p o q ↔ step' p o q) :
    words step p q = words step' p q :=
  Set.ext fun _ => Path.congr steps

variable {l m : Language α}

theorem mem_of_le (below : l ≤ m) (inside : w ∈ l) : w ∈ m :=
  Set.mem_of_mem_of_subset inside below

theorem append_mem (u : List α) {v : List α} (first : u ∈ l) (rest : v ∈ m) : u ++ v ∈ l * m :=
  Language.append_mem_mul first rest

theorem append_mem_kstar {u v : List α} (first : u ∈ l) (rest : v ∈ l∗) : u ++ v ∈ l∗ :=
  mem_of_le mul_kstar_le_kstar (append_mem u first rest)

theorem singleton_mem_kstar {a : α} : [a] ∈ l∗ ↔ [a] ∈ l := by
  constructor
  · intro inside
    obtain ⟨segments, whole, segment⟩ := Language.mem_kstar_iff_exists_nonempty.mp inside
    cases segments with
    | nil => cases whole
    | cons u rest =>
      obtain ⟨here, nonempty⟩ := segment u List.mem_cons_self
      rw [List.flatten_cons] at whole
      rcases List.append_eq_cons_iff.mp whole.symm with ⟨empty, -⟩ | ⟨tail, rfl, nothing⟩
      · exact absurd empty nonempty
      · rw [(List.append_eq_nil_iff.mp nothing.symm).1] at here
        exact here
  · exact fun inside => mem_of_le le_kstar inside

theorem pair_mem_kstar {a b : α} (inside : [a, b] ∈ l∗) : [a, b] ∈ l ∨ [a] ∈ l := by
  obtain ⟨segments, whole, segment⟩ := Language.mem_kstar_iff_exists_nonempty.mp inside
  cases segments with
  | nil => cases whole
  | cons u rest =>
    obtain ⟨here, nonempty⟩ := segment u List.mem_cons_self
    rw [List.flatten_cons] at whole
    match u, nonempty with
    | [c], _ =>
      obtain ⟨rfl, -⟩ := List.cons.inj whole
      exact .inr here
    | c :: d :: u, _ =>
      obtain ⟨rfl, rest'⟩ := List.cons.inj whole
      obtain ⟨rfl, nothing⟩ := List.cons.inj rest'
      rw [(List.append_eq_nil_iff.mp nothing.symm).1] at here
      exact .inl here

theorem path_not_redirected (dead : ∀ o r, ¬step f o r) (path : Path step p w q) (other : q ≠ f) :
    Path (Redirected step f s) p w q := by
  have alive : ∀ {r v}, Path step r v q → r ≠ f := by
    intro r v path here
    subst here
    cases path with
    | nil => exact other rfl
    | silent first _ | letter first _ => exact dead _ _ first
  induction path with
  | nil p => exact .nil p
  | silent first rest ih => exact .silent (.inl ⟨first, alive rest⟩) (ih other alive)
  | letter first rest ih => exact .letter (.inl ⟨first, alive rest⟩) (ih other alive)

theorem path_redirected_end (dead : ∀ o r, ¬step f o r) (path : Path step p w f) (other : p ≠ f) :
    Path (Redirected step f s) p w s := by
  generalize target : f = q at path
  induction path with
  | nil p => exact absurd target.symm other
  | @silent p r _ w first rest ih =>
    subst target
    by_cases here : r = f
    · subst here
      cases rest with
      | nil => exact .silent (.inr ⟨first, rfl⟩) (.nil s)
      | silent first _ | letter first _ => exact absurd first (dead _ _)
    · exact .silent (.inl ⟨first, here⟩) (ih here rfl)
  | @letter p r _ a w first rest ih =>
    subst target
    by_cases here : r = f
    · subst here
      cases rest with
      | nil => exact .letter (.inr ⟨first, rfl⟩) (.nil s)
      | silent first _ | letter first _ => exact absurd first (dead _ _)
    · exact .letter (.inl ⟨first, here⟩) (ih here rfl)

/-- Where the steps to the last state lead back to the first state, a path is cut at the visits of the
first state. -/
theorem path_redirected_segments (path : Path (Redirected step f s) p w q) (target : q = s) :
    w ∈ (words step p s + words step p f) * (words step s s + words step s f)∗ := by
  induction path with
  | nil p =>
    subst target
    exact append_mem [] (.inl (.nil p)) (Language.nil_mem_kstar _)
  | @silent p r q w first rest ih =>
    obtain ⟨u, here, v, loops, rfl⟩ := Language.mem_mul.mp (ih target)
    rcases first with ⟨first, -⟩ | ⟨first, rfl⟩
    · refine Language.append_mem_mul ?_ loops
      rcases here with here | here
      · exact .inl (.silent first here)
      · exact .inr (.silent first here)
    · exact append_mem [] (.inr (.silent first (.nil f))) (append_mem_kstar here loops)
  | @letter p r q a w first rest ih =>
    obtain ⟨u, here, v, loops, rfl⟩ := Language.mem_mul.mp (ih target)
    rcases first with ⟨first, -⟩ | ⟨first, rfl⟩
    · refine append_mem (a :: u) ?_ loops
      rcases here with here | here
      · exact .inl (.letter first here)
      · exact .inr (.letter first here)
    · exact append_mem [a] (.inr (.single first)) (append_mem_kstar here loops)

/-- When no step leaves the last state, the words from the first state back to it are the repetitions of
the words to the first state or to the last state. -/
theorem words_redirected (dead : ∀ o r, ¬step f o r) (apart : s ≠ f) :
    words (Redirected step f s) s s = (words step s s + words step s f)∗ := by
  apply le_antisymm
  · intro w path
    exact mem_of_le mul_kstar_le_kstar (path_redirected_segments path rfl)
  · apply kstar_le_of_mul_le_left
    · rintro w rfl
      exact .nil s
    · rintro w ⟨u, before, v, segment | segment, rfl⟩
      · exact before.trans (path_not_redirected dead segment apart)
      · exact before.trans (path_redirected_end dead segment apart)

/-- Where TURN allows it, a step leads to S too. -/
def Resumed (step : σ → Option α → σ → Prop) (turn : σ → Option α → Prop) (s p : σ) (o : Option α)
    (q : σ) : Prop :=
  step p o q ∨ turn p o ∧ q = s

/-- The words read from S with a turn at the end. -/
def turns (step : σ → Option α → σ → Prop) (turn : σ → Option α → Prop) (s : σ) : Language α :=
  {w | ∃ p v o, Path step s v p ∧ turn p o ∧ w = v ++ o.toList}

variable {turn : σ → Option α → Prop}

theorem path_resumed_segments (path : Path (Resumed step turn s) p w q) :
    w ∈ words step p q + turns step turn p * ((turns step turn s)∗ * words step s q) := by
  induction path with
  | nil p => exact .inl (.nil p)
  | @silent p r q w first rest ih =>
    rcases first with first | ⟨first, rfl⟩
    · rcases ih with path | ⟨u, ⟨r', v, o, path, move, rfl⟩, rest, loops, rfl⟩
      · exact .inl (.silent first path)
      · exact .inr (Language.append_mem_mul ⟨r', v, o, .silent first path, move, rfl⟩ loops)
    refine .inr (append_mem [] ⟨p, [], none, .nil p, first, rfl⟩ ?_)
    rcases ih with path | ⟨u, here, v, ⟨u', loops, v', last, rfl⟩, rfl⟩
    · exact append_mem [] (Language.nil_mem_kstar _) path
    · show u ++ (u' ++ v') ∈ _
      rw [← List.append_assoc]
      exact Language.append_mem_mul (append_mem_kstar here loops) last
  | @letter p r q a w first rest ih =>
    rcases first with first | ⟨first, rfl⟩
    · rcases ih with path | ⟨u, ⟨r', v, o, path, move, rfl⟩, rest, loops, rfl⟩
      · exact .inl (.letter first path)
      · exact .inr (append_mem (a :: (v ++ o.toList)) ⟨r', a :: v, o, .letter first path, move, rfl⟩ loops)
    refine .inr (append_mem [a] ⟨p, [], some a, .nil p, first, rfl⟩ ?_)
    rcases ih with path | ⟨u, here, v, ⟨u', loops, v', last, rfl⟩, rfl⟩
    · exact append_mem [] (Language.nil_mem_kstar _) path
    · show u ++ (u' ++ v') ∈ _
      rw [← List.append_assoc]
      exact Language.append_mem_mul (append_mem_kstar here loops) last

/-- Where steps to S are added, a word is read from S in segments that end with such a step, and a last
segment without one. -/
theorem words_resumed : words (Resumed step turn s) s q = (turns step turn s)∗ * words step s q := by
  have old : words step s q ≤ words (Resumed step turn s) s q := fun w path =>
    Path.mono path fun _ _ _ move => .inl move
  apply le_antisymm
  · intro w path
    rcases path_resumed_segments path with path | ⟨u, here, v, ⟨u', loops, v', last, rfl⟩, rfl⟩
    · exact append_mem [] (Language.nil_mem_kstar _) path
    · show u ++ (u' ++ v') ∈ _
      rw [← List.append_assoc]
      exact Language.append_mem_mul (append_mem_kstar here loops) last
  · refine kstar_mul_le old ?_
    rintro w ⟨u, ⟨p, v, o, path, move, rfl⟩, v', rest, rfl⟩
    have first : Path (Resumed step turn s) s v p := path.mono fun _ _ _ move => .inl move
    have back : Path (Resumed step turn s) p o.toList s := by
      cases o with
      | none => exact .silent (.inr ⟨move, rfl⟩) (.nil s)
      | some a => exact .single (.inr ⟨move, rfl⟩)
    exact (first.trans back).trans rest

theorem nil_mem_mul : [] ∈ l * m ↔ [] ∈ l ∧ [] ∈ m := by
  rw [Language.mem_mul]
  constructor
  · rintro ⟨u, first, v, second, whole⟩
    obtain ⟨rfl, rfl⟩ := List.append_eq_nil_iff.mp whole
    exact ⟨first, second⟩
  · rintro ⟨first, second⟩
    exact ⟨[], first, [], second, rfl⟩

theorem sub_le : l - m ≤ l := fun _ inside => inside.1

theorem add_one_inj (empty : [] ∈ l ↔ [] ∈ m) : l + 1 = m + 1 ↔ l = m := by
  constructor
  · intro same
    ext w
    by_cases here : w = []
    · rw [here]
      exact empty
    · have inside : w ∈ l + 1 ↔ w ∈ m + 1 := by rw [same]
      rw [Language.mem_add, Language.mem_add, Language.mem_one] at inside
      simpa only [here, or_false] using inside
  · intro same
    rw [same]

theorem kstar_mul_eq_iff {f g : Language α} :
    g∗ * f = f * f∗ ↔ (g - f) * f ≤ f * f∗ ∧ (f - g - 1) * (g∗ * f) ≤ g∗ * f := by
  constructor
  · intro same
    constructor
    · calc (g - f) * f ≤ g∗ * f := mul_le_mul_left (le_trans sub_le le_kstar) f
        _ = f * f∗ := same
    · calc (f - g - 1) * (g∗ * f) ≤ f * (g∗ * f) :=
            mul_le_mul_left (le_trans sub_le sub_le) _
        _ = f * (f * f∗) := by rw [same]
        _ ≤ f * f∗ := mul_le_mul_right mul_kstar_le_kstar f
        _ = g∗ * f := same.symm
  · rintro ⟨extra, missed⟩
    apply le_antisymm
    · refine kstar_mul_le ?_ ?_
      · calc f = f * 1 := (mul_one f).symm
          _ ≤ f * f∗ := mul_le_mul_right one_le_kstar f
      calc g * (f * f∗) ≤ (g - f + f) * (f * f∗) := mul_le_mul_left le_tsub_add _
        _ = (g - f) * f * f∗ + f * (f * f∗) := by rw [add_mul, mul_assoc]
        _ ≤ f * f∗ := add_le ?_ (mul_le_mul_right mul_kstar_le_kstar f)
      calc (g - f) * f * f∗ ≤ f * f∗ * f∗ := mul_le_mul_left extra _
        _ = f * f∗ := by rw [mul_assoc, kstar_mul_kstar]
    · rw [← Language.mul_self_kstar_comm]
      refine kstar_mul_le ?_ ?_
      · calc f = 1 * f := (one_mul f).symm
          _ ≤ g∗ * f := mul_le_mul_left one_le_kstar f
      calc f * (g∗ * f) ≤ (f - g - 1 + 1 + g) * (g∗ * f) := mul_le_mul_left ?_ _
        _ = (f - g - 1) * (g∗ * f) + g∗ * f + g * g∗ * f := by
          rw [add_mul, add_mul, one_mul, mul_assoc g]
        _ ≤ g∗ * f := add_le (add_le missed le_rfl) (mul_le_mul_left mul_kstar_le_kstar f)
      calc f ≤ f - g + g := le_tsub_add
        _ ≤ f - g - 1 + 1 + g := add_le_add_left le_tsub_add g

end Automata
