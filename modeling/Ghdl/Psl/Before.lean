import Ghdl.Automata.Words
import Ghdl.Psl.Rewrites

/-!
# The operator before

`Rewrite_Before` builds a sequence of cycles without either boolean that ends with a last cycle. The sequence
for the inclusive operator ends with B2, so that it has the meaning of the operator where both booleans come
in the same cycle first.
-/

namespace Ghdl.Psl

open Automata
open scoped Computability

variable {P : Type} {meaning : P → Trace → Prop} {a b r b1 b2 : BoolNode} {x : Letter} {u : List Letter}
  {w : Trace} {i j m : Nat}

theorem meets_some {letter : Valuation} : Letter.Meets (some letter) b ↔ b.eval letter = true := by
  unfold Letter.Meets
  simp

theorem mem_boolean : u ∈ (Sere.boolean b).language ↔ ∃ x, u = [x] ∧ Letter.Meets x b := Iff.rfl

theorem mem_star_boolean : u ∈ (Sere.star (.boolean b)).language ↔ ∀ x ∈ u, Letter.Meets x b := by
  show u ∈ (Sere.boolean b).language∗ ↔ _
  constructor
  · intro inside x member
    obtain ⟨segments, rfl, segment⟩ := Language.mem_kstar.mp inside
    obtain ⟨v, inSegments, inV⟩ := List.mem_flatten.mp member
    obtain ⟨y, rfl, meets⟩ := mem_boolean.mp (segment v inSegments)
    rwa [List.mem_singleton.mp inV]
  · intro all
    induction u with
    | nil => exact Language.nil_mem_kstar _
    | cons x u ih =>
      have first : [x] ∈ (Sere.boolean b).language := ⟨x, rfl, all x List.mem_cons_self⟩
      have rest := ih fun y member => all y (List.mem_cons_of_mem x member)
      exact append_mem_kstar first rest

theorem mem_until : u ++ [x] ∈ (Sere.concat (.star (.boolean a)) (.boolean r)).language ↔
    (∀ y ∈ u, Letter.Meets y a) ∧ Letter.Meets x r := by
  show u ++ [x] ∈ (Sere.star (.boolean a)).language * (Sere.boolean r).language ↔ _
  constructor
  · intro inside
    obtain ⟨v, before, v', ⟨y, rfl, meets⟩, same⟩ := Language.mem_mul.mp inside
    obtain ⟨rfl, isY⟩ := List.append_inj' same rfl
    rw [List.singleton_inj] at isY
    exact ⟨mem_star_boolean.mp before, isY ▸ meets⟩
  · rintro ⟨before, meets⟩
    exact append_mem u (mem_star_boolean.mpr before) ⟨x, rfl, meets⟩

theorem upTo_mem_until : w.upTo j ∈ (Sere.concat (.star (.boolean a)) (.boolean r)).language ↔
    (∀ i < j, w.Meets i a) ∧ w.Meets j r := by
  unfold Trace.upTo
  rw [List.range_succ, List.map_append, List.map_singleton, mem_until, meets_some]
  simp only [List.mem_map, List.mem_range, forall_exists_index, and_imp, forall_apply_eq_imp_iff₂, meets_some]
  exact Iff.rfl

theorem cut_mem_until : w.cut j m ∈ (Sere.concat (.star (.boolean a)) (.boolean r)).language ↔
    (∀ i < m, i ≤ j → w.Meets i a) ∧ (m ≤ j → w.Meets m r) := by
  have meets : ∀ {i b}, Letter.Meets (if i ≤ j then some (w.letter i) else none) b ↔
      (i ≤ j → w.Meets i b) := by
    intro i b
    by_cases inside : i ≤ j
    · simp [inside, meets_some, Trace.Meets]
    · simp [inside, Letter.Meets]
  unfold Trace.cut
  rw [List.range_succ, List.map_append, List.map_singleton, mem_until, meets]
  simp only [List.mem_map, List.mem_range, forall_exists_index, and_imp, forall_apply_eq_imp_iff₂, meets]

theorem exists_cut_mem_until : (∃ m, w.cut j m ∈ (Sere.concat (.star (.boolean a)) (.boolean r)).language) ↔
      (∀ i ≤ j, w.Meets i a) ∨ ∃ i ≤ j, w.Meets i r ∧ ∀ k < i, w.Meets k a := by
  simp only [cut_mem_until]
  constructor
  · rintro ⟨m, before, last⟩
    by_cases inside : m ≤ j
    · right
      refine ⟨m, inside, last inside, fun k less => before k less ?_⟩
      omega
    · left
      intro i below
      apply before i _ below
      omega
  · rintro (all | ⟨i, below, meets, before⟩)
    · refine ⟨j + 1, fun i _ below => all i below, fun impossible => ?_⟩
      omega
    · exact ⟨i, fun k less _ => before k less, fun _ => meets⟩

theorem holds_until (strong : Bool) :
    (if strong then Property.strong (P := P) (.concat (.star (.boolean a)) (.boolean r))
      else .sere (.concat (.star (.boolean a)) (.boolean r))).Holds meaning w ↔
      (∃ i : Nat, i < w.length ∧ w.Meets i r ∧ ∀ k < i, w.Meets k a) ∨
        strong = false ∧ ∀ i : Nat, i < w.length → w.Meets i a := by
  cases strong with
  | true =>
    show (∃ j : Nat, j < w.length ∧ _) ↔ _
    simp only [upTo_mem_until]
    constructor
    · rintro ⟨j, inside, before, meets⟩
      exact .inl ⟨j, inside, meets, before⟩
    · rintro (⟨j, inside, meets, before⟩ | ⟨impossible, -⟩)
      · exact ⟨j, inside, before, meets⟩
      · cases impossible
  | false =>
    show (∀ j : Nat, j < w.length → _) ↔ _
    simp only [exists_cut_mem_until]
    constructor
    · intro each
      by_cases found : ∃ i : Nat, i < w.length ∧ w.Meets i r ∧ ∀ k < i, w.Meets k a
      · exact .inl found
      right
      refine ⟨trivial, fun i inside => ?_⟩
      rcases each i inside with all | ⟨k, below, meets, before⟩
      · exact all i (Nat.le_refl i)
      · have earlier : (k : ℕ∞) < w.length := lt_of_le_of_lt (Nat.cast_le.mpr below) inside
        exact absurd ⟨k, earlier, meets, before⟩ found
    · rintro (⟨i, inside, meets, before⟩ | ⟨-, all⟩) j here
      · by_cases below : i ≤ j
        · exact .inr ⟨i, below, meets, before⟩
        · left
          intro k atMost
          apply before k
          omega
      · left
        intro k atMost
        exact all k (lt_of_le_of_lt (Nat.cast_le.mpr atMost) here)

/-- `b1 before b2` and its forms. B1 comes in a cycle, and B2 in none before it; nor does B2 come in that cycle
unless the operator is inclusive. The weak forms also hold when B2 never comes. -/
def Before (b1 b2 : BoolNode) (inclusive strong : Bool) (w : Trace) : Prop :=
  (∃ i : Nat, i < w.length ∧ w.Meets i b1 ∧ (inclusive = false → ¬w.Meets i b2) ∧ ∀ k < i, ¬w.Meets k b2) ∨
    strong = false ∧ ∀ i : Nat, i < w.length → ¬w.Meets i b2

/-- In the first cycle in which one of the booleans is true, both are. -/
def FirstTogether (b1 b2 : BoolNode) (w : Trace) : Prop :=
  ∀ i : Nat, i < w.length → (w.Meets i b1 ∨ w.Meets i b2) → (∀ k < i, ¬w.Meets k b1 ∧ ¬w.Meets k b2) →
    w.Meets i b1 ∧ w.Meets i b2

theorem meets_and : w.Meets i (buildBoolAnd a b) ↔ w.Meets i a ∧ w.Meets i b := by
  unfold Trace.Meets
  rw [eval_buildBoolAnd]
  simp

theorem meets_not : w.Meets i (buildBoolNot a) ↔ ¬w.Meets i a := by
  unfold Trace.Meets
  rw [eval_buildBoolNot]
  simp

/-- What `Rewrite_Before` builds. -/
theorem holds_rewriteBefore (inclusive strong : Bool) :
    (rewriteBefore (P := P) b1 b2 inclusive strong).Holds meaning w ↔
      (∃ i : Nat, i < w.length ∧ (w.Meets i b2 ∨ inclusive = false) ∧
        (inclusive = false → w.Meets i b1 ∧ ¬w.Meets i b2) ∧ ∀ k < i, ¬w.Meets k b1 ∧ ¬w.Meets k b2) ∨
          strong = false ∧ ∀ i : Nat, i < w.length → ¬w.Meets i b1 ∧ ¬w.Meets i b2 := by
  unfold rewriteBefore
  dsimp only
  rw [holds_until]
  cases inclusive with
  | true | false => simp [meets_and, meets_not]

theorem first_cases (b1 b2 : BoolNode) (w : Trace) : (∀ i : Nat, i < w.length → ¬w.Meets i b1 ∧ ¬w.Meets i b2) ∨
      ∃ i : Nat, i < w.length ∧ (w.Meets i b1 ∨ w.Meets i b2) ∧ ∀ k < i, ¬w.Meets k b1 ∧ ¬w.Meets k b2 := by
  classical
  by_cases found : ∃ i : Nat, i < w.length ∧ (w.Meets i b1 ∨ w.Meets i b2)
  · right
    have inside := (Nat.find_spec found).1
    have meets := (Nat.find_spec found).2
    refine ⟨Nat.find found, inside, meets, fun k less => ?_⟩
    have earlier : (k : ℕ∞) < w.length := lt_trans (Nat.cast_lt.mpr less) inside
    have nothing := Nat.find_min found less
    have neither : ¬(w.Meets k b1 ∨ w.Meets k b2) := fun some => nothing ⟨earlier, some⟩
    exact not_or.mp neither
  · left
    intro i inside
    have neither : ¬(w.Meets i b1 ∨ w.Meets i b2) := fun some => found ⟨i, inside, some⟩
    exact not_or.mp neither

variable (P meaning) in
theorem never_together (never : ∀ i : Nat, i < w.length → ¬w.Meets i b1 ∧ ¬w.Meets i b2) (inclusive strong : Bool) :
    ((rewriteBefore (P := P) b1 b2 inclusive strong).Holds meaning w ↔ strong = false) ∧
      (Before b1 b2 inclusive strong w ↔ strong = false) := by
  constructor
  · rw [holds_rewriteBefore]
    constructor
    · rintro (⟨i, inside, last, exclusive, -⟩ | ⟨weak, -⟩)
      · have neither := never i inside
        rcases last with meets | flag
        · exact absurd meets neither.2
        · exact absurd (exclusive flag).1 neither.1
      · exact weak
    · intro weak
      exact .inr ⟨weak, never⟩
  · constructor
    · rintro (⟨i, inside, meets, -⟩ | ⟨weak, -⟩)
      · exact absurd meets (never i inside).1
      · exact weak
    · intro weak
      exact .inr ⟨weak, fun i inside => (never i inside).2⟩

variable (P meaning) in
/-- From a first cycle with one of the booleans on, only that cycle counts. -/
theorem first_decides (inside : i < w.length) (meets : w.Meets i b1 ∨ w.Meets i b2)
    (first : ∀ k < i, ¬w.Meets k b1 ∧ ¬w.Meets k b2) (inclusive strong : Bool) :
    ((rewriteBefore (P := P) b1 b2 inclusive strong).Holds meaning w ↔
      if inclusive then w.Meets i b2 else w.Meets i b1 ∧ ¬w.Meets i b2) ∧ (Before b1 b2 inclusive strong w ↔
          if inclusive then w.Meets i b1 else w.Meets i b1 ∧ ¬w.Meets i b2) := by
  -- A later cycle has I before it, an earlier one has neither boolean.
  have here : ∀ {j : Nat}, (w.Meets j b1 ∨ w.Meets j b2) → (∀ k < j, ¬w.Meets k b1 ∧ ¬w.Meets k b2) → j = i := by
    intro j meetsJ firstJ
    rcases Nat.lt_trichotomy j i with less | same | more
    · exact absurd meetsJ (not_or.mpr (first j less))
    · exact same
    · exact absurd meets (not_or.mpr (firstJ i more))
  constructor
  · rw [holds_rewriteBefore]
    cases inclusive with
    | true =>
      constructor
      · rintro (⟨j, -, last, -, firstJ⟩ | ⟨-, never⟩)
        · have meetsJ : w.Meets j b2 := last.resolve_right (by simp)
          have same := here (.inr meetsJ) firstJ
          exact same ▸ meetsJ
        · exact absurd meets (not_or.mpr (never i inside))
      · intro last
        exact .inl ⟨i, inside, .inl last, fun impossible => (by cases impossible), first⟩
    | false =>
      constructor
      · rintro (⟨j, -, -, exclusive, firstJ⟩ | ⟨-, never⟩)
        · have meetsJ := exclusive rfl
          have same := here (.inl meetsJ.1) firstJ
          exact same ▸ meetsJ
        · exact absurd meets (not_or.mpr (never i inside))
      · intro exclusive
        exact .inl ⟨i, inside, .inr rfl, fun _ => exclusive, first⟩
  · have earlier : ∀ {j : Nat}, w.Meets j b1 → (∀ k < j, ¬w.Meets k b2) → ¬w.Meets i b1 → j = i := by
      intro j meetsJ firstJ without
      have second : w.Meets i b2 := meets.resolve_left without
      rcases Nat.lt_trichotomy j i with less | same | more
      · exact absurd meetsJ (first j less).1
      · exact same
      · exact absurd second (firstJ i more)
    cases inclusive with
    | true =>
      constructor
      · rintro (⟨j, -, meetsJ, -, firstJ⟩ | ⟨-, never⟩)
        · by_contra without
          exact without (earlier meetsJ firstJ without ▸ meetsJ)
        · exact meets.resolve_right (never i inside)
      · intro meetsI
        exact .inl ⟨i, inside, meetsI, fun impossible => (by cases impossible), fun k less => (first k less).2⟩
    | false =>
      constructor
      · rintro (⟨j, -, meetsJ, exclusive, firstJ⟩ | ⟨-, never⟩)
        · have without := exclusive rfl
          have notAfter : j ≤ i ∨ i < j := Nat.lt_or_ge i j |>.symm
          rcases notAfter with before | after
          · rcases Nat.eq_or_lt_of_le before with same | less
            · exact same ▸ ⟨meetsJ, without⟩
            · exact absurd meetsJ (first j less).1
          · have notSecond := firstJ i after
            exact ⟨meets.resolve_right notSecond, notSecond⟩
        · have notSecond := never i inside
          exact ⟨meets.resolve_right notSecond, notSecond⟩
      · rintro ⟨meetsI, without⟩
        exact .inl ⟨i, inside, meetsI, fun _ => without, fun k less => (first k less).2⟩

/-- `Rewrite_Before` has the meaning of the operator exactly when the operator is not inclusive, or both
booleans are true in the first cycle in which one of them is. -/
theorem rewrite_before_iff (meaning : P → Trace → Prop) (b1 b2 : BoolNode) (inclusive strong : Bool) (w : Trace) :
    ((rewriteBefore b1 b2 inclusive strong).Holds meaning w ↔ Before b1 b2 inclusive strong w) ↔
      inclusive = false ∨ FirstTogether b1 b2 w := by
  rcases first_cases b1 b2 w with never | ⟨i, inside, meets, first⟩
  · obtain ⟨code, operator⟩ := never_together P meaning never inclusive strong
    have together : FirstTogether b1 b2 w := by
      intro i inside meets
      exact absurd meets (not_or.mpr (never i inside))
    rw [code, operator]
    exact iff_of_true Iff.rfl (.inr together)
  · obtain ⟨code, operator⟩ := first_decides P meaning inside meets first inclusive strong
    have together : FirstTogether b1 b2 w ↔ w.Meets i b1 ∧ w.Meets i b2 := by
      constructor
      · intro all
        exact all i inside meets first
      · intro both j insideJ meetsJ firstJ
        rcases Nat.lt_trichotomy j i with less | same | more
        · exact absurd meetsJ (not_or.mpr (first j less))
        · exact same ▸ both
        · exact absurd meets (not_or.mpr (firstJ i more))
    rw [code, operator, together]
    cases inclusive with
    | true =>
      simp only [if_true, Bool.true_eq_false, false_or]
      tauto
    | false => simp

/-- `b1 before_ b2` on a trace of one cycle in which only B1 is true: the operator holds, and what it is
rewritten to does not. -/
theorem rewrite_before_inclusive : ∃ w : Trace, Before (.hdlExpr 0) (.hdlExpr 1) true false w ∧
      ¬(rewriteBefore (P := Empty) (.hdlExpr 0) (.hdlExpr 1) true false).Holds (fun p _ => p.elim) w := by
  refine ⟨{ length := 1, letter := fun _ => { hdl := fun n => n = 0, eos := false } }, ?_, ?_⟩
  · exact .inl ⟨0, Nat.cast_lt.mpr Nat.zero_lt_one, rfl, fun impossible => (by cases impossible),
      fun k less => absurd less (Nat.not_lt_zero k)⟩
  rw [holds_rewriteBefore]
  rintro (⟨i, -, last, -⟩ | ⟨-, never⟩)
  · rcases last with meets | impossible
    · cases meets
    · cases impossible
  · have first := (never 0 (Nat.cast_lt.mpr Nat.zero_lt_one)).1
    exact first rfl

end Ghdl.Psl
