import Ghdl.Psl.Before

/-!
# Occurrences of a boolean

A repetition with bounds matches as many words of its sequence as the bounds allow, and the goto repetition
of a boolean matches up to one of its occurrences. The strong form of `next_event_a` is rewritten with the
occurrence of the lower bound, where the operator asks for that of the upper bound.
-/

namespace Ghdl.Psl

open Automata
open scoped Computability

variable {P : Type} {meaning : P → Trace → Prop} {b : BoolNode} {s seq : Sere} {u : List Letter} {w : Trace}
  {lo hi cnt n i j k : Nat} {p : Property P} {strong : Bool}

theorem language_repeat (entries : List Nat) (res : Sere) :
    (entries.foldl (fun res _ => Sere.concat res seq) res).language = res.language * seq.language ^ entries.length := by
  induction entries generalizing res with
  | nil => simp
  | cons e entries ih =>
    rw [List.foldl_cons, ih, List.length_cons, pow_succ', ← mul_assoc]
    rfl

variable (seq) in
theorem buildRepeat_language (positive : 0 < cnt) :
    ∃ res, buildRepeat seq cnt = .ok res ∧ res.language = seq.language ^ cnt := by
  have nonzero : cnt ≠ 0 := Nat.ne_of_gt positive
  refine ⟨_, if_neg nonzero, ?_⟩
  rw [language_repeat, List.length_range', ← pow_succ']
  congr 1
  omega

theorem mem_one_more {res : Sere} (most : ∀ u, u ∈ res.language ↔ ∃ k ≤ n, u ∈ seq.language ^ k) :
    u ∈ (Sere.or .empty (.concat seq res)).language ↔ ∃ k ≤ n + 1, u ∈ seq.language ^ k := by
  show u ∈ (1 : Language Letter) + seq.language * res.language ↔ _
  rw [Language.mem_add]
  constructor
  · rintro (empty | rest)
    · exact ⟨0, Nat.zero_le _, by simpa using empty⟩
    · obtain ⟨v, first, v', inside, rfl⟩ := Language.mem_mul.mp rest
      obtain ⟨k, bound, power⟩ := (most v').mp inside
      refine ⟨k + 1, Nat.succ_le_succ bound, ?_⟩
      rw [pow_succ']
      exact append_mem v first power
  · rintro ⟨k, bound, power⟩
    cases k with
    | zero => exact .inl (by simpa using power)
    | succ k =>
      rw [pow_succ'] at power
      obtain ⟨v, first, v', inside, rfl⟩ := Language.mem_mul.mp power
      exact .inr (append_mem v first ((most v').mpr ⟨k, Nat.le_of_succ_le_succ bound, inside⟩))

theorem mem_foldl_more (entries : List Nat) {res : Sere}
    (most : ∀ u, u ∈ res.language ↔ ∃ k ≤ n, u ∈ seq.language ^ k) :
    u ∈ (entries.foldl (fun res _ => Sere.or .empty (.concat seq res)) res).language ↔
      ∃ k ≤ n + entries.length, u ∈ seq.language ^ k := by
  induction entries generalizing n res with
  | nil => exact most u
  | cons e entries ih =>
    rw [List.foldl_cons, ih fun u => mem_one_more most, List.length_cons]
    have same : n + 1 + entries.length = n + (entries.length + 1) := by omega
    rw [same]

theorem mem_empty_or : u ∈ (Sere.or .empty seq).language ↔ ∃ k ≤ 1, u ∈ seq.language ^ k := by
  show u ∈ (1 : Language Letter) + seq.language ↔ _
  rw [Language.mem_add]
  constructor
  · rintro (empty | once)
    · exact ⟨0, Nat.zero_le _, by simpa using empty⟩
    · exact ⟨1, Nat.le_refl _, by simpa using once⟩
  · rintro ⟨k, bound, power⟩
    have cases : k = 0 ∨ k = 1 := by omega
    rcases cases with rfl | rfl
    · exact .inl (by simpa using power)
    · exact .inr (by simpa using power)

variable (seq) in
theorem rewriteStarRepeatSeq_language (ordered : lo ≤ hi) : ∃ res, rewriteStarRepeatSeq seq lo hi = .ok res ∧
      ∀ u, u ∈ res.language ↔ ∃ k, lo ≤ k ∧ k ≤ hi ∧ u ∈ seq.language ^ k := by
  unfold rewriteStarRepeatSeq
  rw [if_neg (Nat.not_lt.mpr ordered)]
  by_cases same : lo = hi
  · subst same
    have exactly : ∀ u, (∃ k, lo ≤ k ∧ k ≤ lo ∧ u ∈ seq.language ^ k) ↔ u ∈ seq.language ^ lo := by
      intro u
      constructor
      · rintro ⟨k, lower, upper, power⟩
        rwa [Nat.le_antisymm lower upper]
      · intro power
        exact ⟨lo, Nat.le_refl lo, Nat.le_refl lo, power⟩
    simp only [exactly]
    rw [if_pos trivial]
    by_cases zero : lo = 0
    · subst zero
      exact ⟨.empty, rfl, fun u => Iff.rfl⟩
    rw [if_neg zero]
    by_cases one : lo = 1
    · subst one
      exact ⟨seq, rfl, fun u => by rw [pow_one]⟩
    · rw [if_neg one]
      obtain ⟨res, run, language⟩ := buildRepeat_language seq (Nat.pos_of_ne_zero zero)
      exact ⟨res, run, fun u => by rw [language]⟩
  rw [if_neg same]
  have less : lo < hi := Nat.lt_of_le_of_ne ordered same
  have rest : ∀ u, u ∈ ((List.range' (lo + 2) (hi - (lo + 1))).foldl
      (fun res _ => Sere.or .empty (.concat seq res)) (.or .empty seq)).language ↔
        ∃ k ≤ hi - lo, u ∈ seq.language ^ k := by
    intro u
    rw [mem_foldl_more _ fun u => mem_empty_or, List.length_range']
    have count : 1 + (hi - (lo + 1)) = hi - lo := by omega
    rw [count]
  dsimp only
  by_cases positive : 0 < lo
  · obtain ⟨first, run, language⟩ := buildRepeat_language seq positive
    rw [if_pos positive, run]
    refine ⟨_, rfl, fun u => ?_⟩
    show u ∈ first.language * _ ↔ _
    rw [language]
    constructor
    · intro inside
      obtain ⟨v, before, v', after, rfl⟩ := Language.mem_mul.mp inside
      obtain ⟨k, bound, power⟩ := (rest v').mp after
      refine ⟨lo + k, Nat.le_add_right lo k, by omega, ?_⟩
      rw [pow_add]
      exact append_mem v before power
    · rintro ⟨k, lower, upper, power⟩
      obtain ⟨d, rfl⟩ := Nat.exists_eq_add_of_le lower
      rw [pow_add] at power
      obtain ⟨v, before, v', after, rfl⟩ := Language.mem_mul.mp power
      have bound : d ≤ hi - lo := by omega
      exact append_mem v before ((rest v').mpr ⟨d, bound, after⟩)
  · rw [if_neg positive]
    refine ⟨_, rfl, fun u => ?_⟩
    have zero : lo = 0 := by omega
    subst zero
    rw [rest]
    simp

/-- How often a boolean is true in a word. -/
def occurrences (b : BoolNode) (u : List Valuation) : Nat := u.countP fun letter => b.eval letter

theorem mem_goto {u : List Valuation} :
    u.map some ∈ (Sere.concat (.star (.boolean (buildBoolNot b))) (.boolean b)).language ^ k ↔
      occurrences b u = k ∧ ∀ letter ∈ u.getLast?, b.eval letter = true := by
  induction k generalizing u with
  | zero =>
    rw [pow_zero, Language.mem_one, List.map_eq_nil_iff]
    constructor
    · rintro rfl
      simp [occurrences]
    · rintro ⟨none, last⟩
      cases u using List.reverseRecOn with
      | nil => rfl
      | append_singleton u letter _ =>
        have meets : b.eval letter = true := last letter (by simp)
        simp [occurrences, meets] at none
  | succ k ih =>
    rw [pow_succ]
    constructor
    · intro inside
      obtain ⟨v, before, v', after, same⟩ := Language.mem_mul.mp inside
      obtain ⟨u₁, u₂, rfl, rfl, rfl⟩ := List.append_eq_map_iff.mp same
      obtain ⟨count, -⟩ := ih.mp before
      cases u₂ using List.reverseRecOn with
      | nil =>
        obtain ⟨x, -, y, ⟨z, rfl, -⟩, impossible⟩ := Language.mem_mul.mp after
        simp at impossible
      | append_singleton u₂ letter _ =>
        rw [List.map_append, List.map_singleton, mem_until] at after
        obtain ⟨without, meets⟩ := after
        rw [meets_some] at meets
        have nothing : occurrences b u₂ = 0 := by
          unfold occurrences
          rw [List.countP_eq_zero]
          intro x member
          have clear := meets_some.mp (without (some x) (List.mem_map_of_mem member))
          rw [eval_buildBoolNot] at clear
          simpa using clear
        unfold occurrences at count nothing ⊢
        refine ⟨?_, by simpa using meets⟩
        rw [List.countP_append, List.countP_append, count, nothing]
        simp [meets]
    · rintro ⟨count, last⟩
      cases u using List.reverseRecOn with
      | nil => simp [occurrences] at count
      | append_singleton u letter _ =>
        have meets : b.eval letter = true := last letter (by simp)
        have before : occurrences b u = k := by
          simpa [occurrences, meets] using count
        -- The word up to the occurrence before the last one, and the cycles without an occurrence.
        have split := List.rdropWhile_append_rtakeWhile (l := u) (p := fun x => !b.eval x)
        have clear : ∀ x ∈ u.rtakeWhile fun x => !b.eval x, b.eval x = false := by
          intro x member
          have isClear := List.mem_rtakeWhile_imp member
          simpa using isClear
        have first : occurrences b (u.rdropWhile fun x => !b.eval x) = k := by
          have none : occurrences b (u.rtakeWhile fun x => !b.eval x) = 0 := by
            unfold occurrences
            rw [List.countP_eq_zero]
            intro x member
            rw [clear x member]
            decide
          unfold occurrences at before none ⊢
          rw [← split, List.countP_append, none] at before
          exact before
        have front : (u.rdropWhile fun x => !b.eval x).map some ∈
            (Sere.concat (.star (.boolean (buildBoolNot b))) (.boolean b)).language ^ k := by
          refine ih.mpr ⟨first, fun x member => ?_⟩
          have nonempty : u.rdropWhile (fun x => !b.eval x) ≠ [] := by
            intro empty
            rw [empty] at member
            cases member
          have ends := List.rdropWhile_last_not (fun x => !b.eval x) u nonempty
          rw [List.getLast?_eq_some_getLast nonempty, Option.mem_some_iff] at member
          rw [member] at ends
          simpa using ends
        have back : (u.rtakeWhile fun x => !b.eval x).map some ++ [some letter] ∈
            (Sere.concat (.star (.boolean (buildBoolNot b))) (.boolean b)).language := by
          refine mem_until.mpr ⟨?_, meets_some.mpr meets⟩
          intro y member
          obtain ⟨x, inside, rfl⟩ := List.mem_map.mp member
          rw [meets_some, eval_buildBoolNot, clear x inside]
          rfl
        have whole := append_mem _ front back
        rw [← List.append_assoc, ← List.map_append, split] at whole
        rwa [List.map_append, List.map_singleton]

/-- Cycle J is the K-th one in which the boolean is true. -/
def Occurs (b : BoolNode) (k : Nat) (w : Trace) (j : Nat) : Prop :=
  j < w.length ∧ w.Meets j b ∧ occurrences b ((List.range (j + 1)).map w.letter) = k

/-- `next_event_a (b) [lo to hi] (p)`: the property holds at each occurrence between the bounds; for the strong
form the last of them also exists. -/
def NextEventA (meaning : P → Trace → Prop) (b : BoolNode) (lo hi : Nat) (p : Property P) (strong : Bool)
    (w : Trace) : Prop :=
  (∀ j k, lo ≤ k → k ≤ hi → Occurs b k w j → p.Holds meaning (w.drop j)) ∧
    (strong = true → ∃ j, Occurs b hi w j)

theorem upTo_mem_goto : w.upTo j ∈ (Sere.concat (.star (.boolean (buildBoolNot b))) (.boolean b)).language ^ k ↔
      w.Meets j b ∧ occurrences b ((List.range (j + 1)).map w.letter) = k := by
  have letters : w.upTo j = ((List.range (j + 1)).map w.letter).map some := by
    unfold Trace.upTo
    rw [List.map_map]
    rfl
  have last : ((List.range (j + 1)).map w.letter).getLast? = some (w.letter j) := by
    rw [List.range_succ, List.map_append, List.map_singleton, List.getLast?_append]
    rfl
  rw [letters, mem_goto, last]
  constructor
  · rintro ⟨count, meets⟩
    exact ⟨meets _ rfl, count⟩
  · rintro ⟨meets, count⟩
    refine ⟨count, fun letter same => ?_⟩
    rw [← Option.some.inj same]
    exact meets

theorem rewriteGotoRepeatSeq_upTo (b : BoolNode) (ordered : lo ≤ hi) :
    ∃ res, rewriteGotoRepeatSeq b lo hi = .ok res ∧ ∀ (w : Trace) (j : Nat),
      j < w.length ∧ w.upTo j ∈ res.language ↔ ∃ k, lo ≤ k ∧ k ≤ hi ∧ Occurs b k w j := by
  obtain ⟨res, run, language⟩ := rewriteStarRepeatSeq_language
    (.concat (.star (.boolean (buildBoolNot b))) (.boolean b)) ordered
  refine ⟨res, run, fun w j => ?_⟩
  rw [language]
  constructor
  · rintro ⟨inside, k, lower, upper, power⟩
    obtain ⟨meets, count⟩ := upTo_mem_goto.mp power
    exact ⟨k, lower, upper, inside, meets, count⟩
  · rintro ⟨k, lower, upper, inside, meets, count⟩
    exact ⟨inside, k, lower, upper, upTo_mem_goto.mpr ⟨meets, count⟩⟩

theorem exists_occurs (positive : 1 ≤ lo) (ordered : lo ≤ hi) (occurs : ∃ j, Occurs b hi w j) :
    ∃ j, Occurs b lo w j := by
  classical
  obtain ⟨j, inside, meets, count⟩ := occurs
  have enough : ∃ i, lo ≤ occurrences b ((List.range (i + 1)).map w.letter) := ⟨j, count ▸ ordered⟩
  -- The first cycle in which there are enough of them.
  have reached := Nat.find_spec enough
  have least : Nat.find enough ≤ j := Nat.find_min' enough (count ▸ ordered)
  generalize first : Nat.find enough = i at reached least
  have within : (i : ℕ∞) < w.length := lt_of_le_of_lt (Nat.cast_le.mpr least) inside
  have before : occurrences b ((List.range i).map w.letter) < lo := by
    cases i with
    | zero =>
      unfold occurrences
      simpa using Nat.lt_of_lt_of_le Nat.zero_lt_one positive
    | succ i =>
      have less : i < Nat.find enough := by
        rw [first]
        exact Nat.lt_succ_self i
      exact Nat.not_le.mp (Nat.find_min enough less)
  have step : occurrences b ((List.range (i + 1)).map w.letter) =
      occurrences b ((List.range i).map w.letter) + if b.eval (w.letter i) then 1 else 0 := by
    unfold occurrences
    rw [List.range_succ, List.map_append, List.countP_append, List.map_singleton, List.countP_singleton]
  by_cases here : b.eval (w.letter i) = true
  · rw [if_pos here] at step
    exact ⟨i, within, here, by omega⟩
  · rw [if_neg here] at step
    omega

theorem and_iff_and_iff {q weaker stronger : Prop} (implies : stronger → weaker) :
    (q ∧ weaker ↔ q ∧ stronger) ↔ stronger ∨ ¬weaker ∨ ¬q := by
  constructor
  · intro same
    by_cases holds : q
    · by_cases first : weaker
      · exact .inl (same.mp ⟨holds, first⟩).2
      · exact .inr (.inl first)
    · exact .inr (.inr holds)
  · rintro (second | absent | fails)
    · exact and_congr_right fun _ => iff_of_true (implies second) second
    · exact and_congr_right fun _ => iff_of_false absent fun second => absent (implies second)
    · exact iff_of_false (fun both => fails both.1) fun both => fails both.1

theorem rewriteNextEventA_strong {res existing : Sere} (run : rewriteGotoRepeatSeq b lo hi = .ok res)
    (run' : rewriteGotoRepeatSeq b lo lo = .ok existing) :
    rewriteNextEventA b lo hi p true = .ok (.andProp (.overlapImpSeq res p) (.strong existing)) := by
  unfold rewriteNextEventA
  rw [run]
  show (rewriteGotoRepeatSeq b lo lo >>= _) = _
  rw [run']
  rfl

/-- `Rewrite_Next_Event_A` has the meaning of the operator exactly when the form is weak, or the occurrence of
the upper bound exists, or that of the lower bound does not, or the property fails at an occurrence between
them. -/
theorem rewrite_next_event_a_iff (meaning : P → Trace → Prop) (b : BoolNode) (positive : 1 ≤ lo)
    (ordered : lo ≤ hi) (p : Property P) (strong : Bool) (w : Trace) :
    ∃ res, rewriteNextEventA b lo hi p strong = .ok res ∧
      ((res.Holds meaning w ↔ NextEventA meaning b lo hi p strong w) ↔
        strong = false ∨ (∃ j, Occurs b hi w j) ∨ (¬∃ j, Occurs b lo w j) ∨
          ∃ j k, lo ≤ k ∧ k ≤ hi ∧ Occurs b k w j ∧ ¬p.Holds meaning (w.drop j)) := by
  obtain ⟨res, run, between⟩ := rewriteGotoRepeatSeq_upTo b ordered
  obtain ⟨existing, run', lowest⟩ := rewriteGotoRepeatSeq_upTo b (Nat.le_refl lo)
  have weak : (Property.overlapImpSeq res p).Holds meaning w ↔
      ∀ j k, lo ≤ k → k ≤ hi → Occurs b k w j → p.Holds meaning (w.drop j) := by
    constructor
    · intro holds j k lower upper occurs
      have matched := (between w j).mpr ⟨k, lower, upper, occurs⟩
      exact holds j matched.1 matched.2
    · intro holds j inside matched
      obtain ⟨k, lower, upper, occurs⟩ := (between w j).mp ⟨inside, matched⟩
      exact holds j k lower upper occurs
  have exists' : (Property.strong (P := P) existing).Holds meaning w ↔ ∃ j, Occurs b lo w j := by
    refine exists_congr fun j => (lowest w j).trans ?_
    constructor
    · rintro ⟨k, lower, upper, occurs⟩
      rwa [Nat.le_antisymm lower upper]
    · intro occurs
      exact ⟨lo, Nat.le_refl lo, Nat.le_refl lo, occurs⟩
  have later : (∃ j, Occurs b hi w j) → ∃ j, Occurs b lo w j := exists_occurs positive ordered
  have fails : (¬∀ j k, lo ≤ k → k ≤ hi → Occurs b k w j → p.Holds meaning (w.drop j)) ↔
      ∃ j k, lo ≤ k ∧ k ≤ hi ∧ Occurs b k w j ∧ ¬p.Holds meaning (w.drop j) := by
    simp only [not_forall, exists_prop]
  unfold NextEventA
  rw [← fails]
  cases strong with
  | false =>
    refine ⟨.overlapImpSeq res p, ?_, iff_of_true ?_ (.inl rfl)⟩
    · unfold rewriteNextEventA
      rw [run]
      rfl
    · rw [weak]
      simp
  | true =>
    refine ⟨_, rewriteNextEventA_strong run run', ?_⟩
    show ((_ ∧ _) ↔ _) ↔ _
    rw [weak, exists']
    simp only [forall_const, Bool.true_eq_false, false_or]
    exact and_iff_and_iff later

/-- `next_event_a! (b) [1 to 2] (p)`, weak or strong, on a trace in which B is never true. -/
theorem rewrite_next_event_a_absent : ∃ res, rewriteNextEventA (P := Unit) (.hdlExpr 0) 1 2 (.given ()) true = .ok res ∧
      ((res.Holds (fun _ _ => True) ⟨⊤, fun _ => ⟨fun _ => false, false⟩⟩ ↔
        NextEventA (fun _ _ => True) (.hdlExpr 0) 1 2 (.given ()) true ⟨⊤, fun _ => ⟨fun _ => false, false⟩⟩)) := by
  obtain ⟨res, run, iff⟩ := rewrite_next_event_a_iff (fun _ _ => True) (.hdlExpr 0)
    (by decide : 1 ≤ 1) (by decide : 1 ≤ 2) (.given ()) true ⟨⊤, fun _ => ⟨fun _ => false, false⟩⟩
  refine ⟨res, run, iff.mpr (.inr (.inr (.inl ?_)))⟩
  rintro ⟨j, -, meets, -⟩
  cases meets

/-- `next_event_a! (b) [1 to 2] (p)` on a trace of one cycle in which B and the property hold: there is no
second occurrence, and what the operator is rewritten to holds. -/
theorem rewrite_next_event_a_strong :
    ∃ res w, rewriteNextEventA (P := Unit) (.hdlExpr 0) 1 2 (.given ()) true = .ok res ∧
      res.Holds (fun _ _ => True) w ∧ ¬NextEventA (fun _ _ => True) (.hdlExpr 0) 1 2 (.given ()) true w := by
  obtain ⟨between, run, -⟩ := rewriteGotoRepeatSeq_upTo (.hdlExpr 0) (by decide : 1 ≤ 2)
  obtain ⟨existing, run', lowest⟩ := rewriteGotoRepeatSeq_upTo (.hdlExpr 0) (Nat.le_refl 1)
  have inside : ((0 : Nat) : ℕ∞) < 1 := Nat.cast_lt.mpr Nat.zero_lt_one
  refine ⟨.andProp (.overlapImpSeq between (.given ())) (.strong existing),
    { length := 1, letter := fun _ => { hdl := fun _ => true, eos := false } },
    rewriteNextEventA_strong run run', ⟨?_, ?_⟩, ?_⟩
  · intro j _ _
    exact trivial
  · refine ⟨0, (lowest _ 0).mpr ⟨1, Nat.le_refl 1, Nat.le_refl 1, inside, rfl, rfl⟩⟩
  · rintro ⟨-, second⟩
    obtain ⟨j, within, -, count⟩ := second rfl
    have first : j = 0 := Nat.lt_one_iff.mp (Nat.cast_lt.mp within)
    rw [first] at count
    exact absurd count (by decide)

end Ghdl.Psl
