import Ghdl.Automata.Path

/-!
# Systems that run side by side

Two systems read the same letters, and one of them may wait at its last state while the other one goes on.
A system that waits is not stopped: it may go on from its last state, so that the pair also reads words of
which no prefix is one of its words.
-/

namespace Automata

variable {σ τ α : Type*} {left : σ → Option α → σ → Prop} {right : τ → Option α → τ → Prop}
  {fL p p' : σ} {fR q q' : τ} {pair pair' : σ × τ} {u v w : List α} {a : α} {o : Option α}

/-- Both systems move, or one of them moves while the other one waits at its last state. -/
def PairStep (left : σ → Option α → σ → Prop) (right : τ → Option α → τ → Prop) (fL : σ) (fR : τ)
    (pair : σ × τ) (o : Option α) (pair' : σ × τ) : Prop :=
  left pair.1 o pair'.1 ∧ right pair.2 o pair'.2 ∨
    left pair.1 o pair'.1 ∧ pair.2 = fR ∧ pair'.2 = fR ∨
      (pair.1 = fL ∧ pair'.1 = fL) ∧ right pair.2 o pair'.2

/-- The word is a word of the left system, and a prefix of it is a word of the right system. -/
def Within (left : σ → Option α → σ → Prop) (right : τ → Option α → τ → Prop) (fL : σ) (fR : τ)
    (pair : σ × τ) (w : List α) : Prop :=
  Path left pair.1 w fL ∧ ∃ u, u <+: w ∧ Path right pair.2 u fR

/-- The right system waits at its last state and leaves it at the next letter. -/
def Resumes (left : σ → Option α → σ → Prop) (right : τ → Option α → τ → Prop) (fL : σ) (fR : τ)
    (pair : σ × τ) (w : List α) : Prop :=
  ∃ u p a p' b last v, w = u ++ a :: b :: v ∧ Path (PairStep left right fL fR) pair u (p, fR) ∧
    left p (some a) p' ∧ right fR (some b) last.2 ∧
      (left p' (some b) last.1 ∨ p' = fL ∧ last.1 = fL) ∧
        Path (PairStep left right fL fR) last v (fL, fR)

theorem PairStep.loud (quietL : ∀ p q, ¬left p none q) (quietR : ∀ p q, ¬right p none q)
    (pair pair' : σ × τ) : ¬PairStep left right fL fR pair none pair' := by
  rintro (⟨move, -⟩ | ⟨move, -⟩ | ⟨-, move⟩)
  · exact quietL _ _ move
  · exact quietL _ _ move
  · exact quietR _ _ move

theorem PairStep.swap (move : PairStep left right fL fR pair o pair') :
    PairStep right left fR fL pair.swap o pair'.swap := by
  rcases move with ⟨moveL, moveR⟩ | ⟨moveL, wait⟩ | ⟨wait, moveR⟩
  · exact .inl ⟨moveR, moveL⟩
  · exact .inr (.inr ⟨wait, moveL⟩)
  · exact .inr (.inl ⟨moveR, wait⟩)

theorem path_swap (path : Path (PairStep left right fL fR) pair w pair') :
    Path (PairStep right left fR fL) pair.swap w pair'.swap := by
  exact path.lift Prod.swap fun p o q move => .one move.swap

theorem path_waiting (path : Path left p w p') : Path (PairStep left right fL fR) (p, fR) w (p', fR) := by
  refine path.lift (fun s => (s, fR)) fun s o s' move => ?_
  have step : PairStep left right fL fR (s, fR) o (s', fR) := .inr (.inl ⟨move, rfl, rfl⟩)
  exact .one step

theorem path_of_part (quietL : ∀ p q, ¬left p none q) (quietR : ∀ p q, ¬right p none q)
    (whole : Path left p (u ++ v) p') (first : Path right q u fR) :
    Path (PairStep left right fL fR) (p, q) (u ++ v) (p', fR) := by
  induction u generalizing p q with
  | nil =>
    have here : q = fR := (Path.nil_iff quietR).mp first
    rw [here]
    exact path_waiting whole
  | cons a u ih =>
    rw [List.cons_append] at whole ⊢
    obtain ⟨p₁, moveL, whole⟩ := (Path.cons_iff quietL).mp whole
    obtain ⟨q₁, moveR, first⟩ := (Path.cons_iff quietR).mp first
    have both : PairStep left right fL fR (p, q) (some a) (p₁, q₁) := .inl ⟨moveL, moveR⟩
    exact .letter both (ih whole first)

theorem Within.path (quietL : ∀ p q, ¬left p none q) (quietR : ∀ p q, ¬right p none q)
    (within : Within left right fL fR pair w) : Path (PairStep left right fL fR) pair w (fL, fR) := by
  obtain ⟨whole, u, ⟨v, rfl⟩, first⟩ := within
  exact path_of_part quietL quietR whole first

theorem Resumes.path (resumes : Resumes left right fL fR pair w) :
    Path (PairStep left right fL fR) pair w (fL, fR) := by
  obtain ⟨u, p, a, p', b, last, v, rfl, before, waits, leaves, other, after⟩ := resumes
  have first : PairStep left right fL fR (p, fR) (some a) (p', fR) := .inr (.inl ⟨waits, rfl, rfl⟩)
  have second : PairStep left right fL fR (p', fR) (some b) last := by
    rcases other with move | ⟨here, there⟩
    · exact .inl ⟨move, leaves⟩
    · exact .inr (.inr ⟨⟨here, there⟩, leaves⟩)
  exact before.trans (.letter first (.letter second after))

theorem Resumes.cons (move : PairStep left right fL fR pair (some a) pair')
    (resumes : Resumes left right fL fR pair' w) : Resumes left right fL fR pair (a :: w) := by
  obtain ⟨u, p, b, p', c, last, v, rfl, before, rest⟩ := resumes
  exact ⟨a :: u, p, b, p', c, last, v, rfl, .letter move before, rest⟩

theorem wait_first (quietL : ∀ p q, ¬left p none q) (quietR : ∀ p q, ¬right p none q)
    (pair pair' : σ × τ) (move : left pair.1 (some a) pair'.1) (here : pair.2 = fR) (there : pair'.2 = fR)
    (rest : Within right left fR fL pair'.swap w) :
    Within left right fL fR pair (a :: w) ∨ Resumes left right fL fR pair (a :: w) := by
  obtain ⟨p, q⟩ := pair
  obtain ⟨p', q'⟩ := pair'
  obtain rfl : fR = q := here.symm
  obtain rfl : fR = q' := there.symm
  obtain ⟨whole, u, ⟨v, rfl⟩, first⟩ := rest
  cases u with
  | nil =>
    have here : p' = fL := (Path.nil_iff quietL).mp first
    cases v with
    | nil =>
      exact .inl ⟨.letter move first, [], List.nil_prefix, .nil fR⟩
    | cons b v =>
      obtain ⟨q, leaves, whole⟩ := (Path.cons_iff quietR).mp whole
      have after : Path (PairStep left right fL fR) (fL, q) v (fL, fR) := path_swap (path_waiting whole)
      exact .inr ⟨[], p, a, p', b, (fL, q), v, rfl, .nil _, move, leaves, .inr ⟨here, rfl⟩, after⟩
  | cons b u =>
    rw [List.cons_append] at whole
    obtain ⟨q, leaves, whole⟩ := (Path.cons_iff quietR).mp whole
    obtain ⟨p₁, next, first⟩ := (Path.cons_iff quietL).mp first
    have after : Path (PairStep left right fL fR) (p₁, q) (u ++ v) (fL, fR) :=
      path_swap (path_of_part quietR quietL whole first)
    exact .inr ⟨[], p, a, p', b, (p₁, q), u ++ v, rfl, .nil _, move, leaves, .inl next, after⟩

/-- What the pair reads: a word of one system of which a prefix is a word of the other system, or a word in
which a system that waits goes on. -/
theorem path_pair_iff (quietL : ∀ p q, ¬left p none q) (quietR : ∀ p q, ¬right p none q) :
    Path (PairStep left right fL fR) pair w (fL, fR) ↔
      (Within left right fL fR pair w ∨ Within right left fR fL pair.swap w) ∨
        Resumes left right fL fR pair w ∨ Resumes right left fR fL pair.swap w := by
  constructor
  · intro path
    generalize target : (fL, fR) = last at path
    induction path with
    | nil pair =>
      subst target
      exact .inl (.inl ⟨.nil fL, [], List.prefix_rfl, .nil fR⟩)
    | silent first _ _ => exact absurd first (PairStep.loud quietL quietR _ _)
    | @letter pair pair' last a w first rest ih =>
      rcases ih target with (within | within) | resumes | resumes
      · obtain ⟨whole, u, prefixed, part⟩ := within
        rcases first with ⟨moveL, moveR⟩ | ⟨moveL, here, -⟩ | ⟨wait, moveR⟩
        · exact .inl (.inl ⟨.letter moveL whole, a :: u, List.cons_prefix_cons.mpr ⟨rfl, prefixed⟩,
            .letter moveR part⟩)
        · exact .inl (.inl ⟨.letter moveL whole, [], List.nil_prefix, here ▸ .nil _⟩)
        · have within : Within left right fL fR pair' w := ⟨whole, u, prefixed, part⟩
          rcases wait_first quietR quietL pair.swap pair'.swap moveR wait.1 wait.2 within with within | resumes
          · exact .inl (.inr within)
          · exact .inr (.inr resumes)
      · obtain ⟨whole, u, prefixed, part⟩ := within
        rcases first with ⟨moveL, moveR⟩ | ⟨moveL, here, there⟩ | ⟨⟨here, -⟩, moveR⟩
        · exact .inl (.inr ⟨.letter moveR whole, a :: u, List.cons_prefix_cons.mpr ⟨rfl, prefixed⟩,
            .letter moveL part⟩)
        · have within : Within right left fR fL pair'.swap w := ⟨whole, u, prefixed, part⟩
          rcases wait_first quietL quietR pair pair' moveL here there within with within | resumes
          · exact .inl (.inl within)
          · exact .inr (.inl resumes)
        · exact .inl (.inr ⟨.letter moveR whole, [], List.nil_prefix, here ▸ .nil _⟩)
      · exact .inr (.inl (resumes.cons first))
      · exact .inr (.inr (resumes.cons first.swap))
  · rintro ((within | within) | resumes | resumes)
    · exact within.path quietL quietR
    · exact path_swap (within.path quietR quietL)
    · exact resumes.path
    · exact path_swap resumes.path

end Automata
