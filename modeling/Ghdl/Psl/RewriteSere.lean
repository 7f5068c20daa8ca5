import Ghdl.Automata.Preimage
import Ghdl.Psl.SourceSere

/-!
# Rewriting keeps the words

`Rewrite_SERE` returns a sequence with the words of the sequence as its bounds are read. These are the words of the
sequence itself when reading each range up to `inf` as its lower bound makes no difference.
-/

namespace Ghdl.Psl

open Automata
open scoped Computability

variable {R : Type} {b : BoolNode} {left right s : Sere} {w : List Valuation} {range : SereRange}

/-- The words of valuations that a sequence matches. -/
def Sere.words (s : Sere) : Language Valuation := preimage some s.language

theorem Sere.mem_words : w ∈ s.words ↔ w.map some ∈ s.language := Iff.rfl

theorem Sere.words_concat : (Sere.concat left right).words = left.words * right.words := preimage_mul some

theorem Sere.words_matchAnd : (Sere.matchAnd left right).words = left.words ⊓ right.words := rfl

theorem Sere.words_or : (Sere.or left right).words = left.words + right.words := rfl

theorem Sere.words_star : (Sere.star s).words = s.words∗ := preimage_kstar some

theorem Sere.words_plus : (Sere.plus s).words = s.words * s.words∗ := by
  show preimage some (s.language * s.language∗) = _
  rw [preimage_mul, preimage_kstar]
  rfl

theorem Sere.mem_words_boolean : w ∈ (Sere.boolean b).words ↔ ∃ letter, w = [letter] ∧ b.eval letter = true := by
  rw [mem_words, mem_boolean]
  constructor
  · rintro ⟨x, same, meets⟩
    obtain ⟨letter, rfl, rfl⟩ := List.map_eq_singleton_iff.mp same
    exact ⟨letter, rfl, meets_some.mp meets⟩
  · rintro ⟨letter, rfl, holds⟩
    exact ⟨some letter, rfl, meets_some.mpr holds⟩

theorem Sere.mem_words_fusion : w ∈ (Sere.fusion left right).words ↔
    ∃ u x v, w = u ++ x :: v ∧ u ++ [x] ∈ left.words ∧ x :: v ∈ right.words := by
  rw [mem_words]
  constructor
  · rintro ⟨u, x, v, same, first, second⟩
    obtain ⟨u, back, rfl, rfl, rest⟩ := List.append_eq_map_iff.mp same.symm
    obtain ⟨x, v, rfl, rfl, rfl⟩ := List.map_eq_cons_iff.mp rest
    refine ⟨u, x, v, rfl, ?_, second⟩
    rw [mem_words, List.map_append]
    exact first
  · rintro ⟨u, x, v, rfl, first, second⟩
    refine ⟨u.map some, some x, v.map some, by rw [List.map_append, List.map_cons], ?_, second⟩
    rw [mem_words, List.map_append] at first
    exact first

theorem Sere.exists_prefix : (∃ u, u <+: w.map some ∧ u ∈ s.language) ↔ ∃ u, u <+: w ∧ u ∈ s.words := by
  constructor
  · rintro ⟨u, ⟨v, same⟩, inside⟩
    obtain ⟨u, v, rfl, rfl, rfl⟩ := List.append_eq_map_iff.mp same
    exact ⟨u, List.prefix_append u v, inside⟩
  · rintro ⟨u, ⟨v, rfl⟩, inside⟩
    exact ⟨u.map some, ⟨v.map some, List.map_append.symm⟩, inside⟩

theorem Sere.mem_words_and : w ∈ (Sere.and left right).words ↔ (w ∈ left.words ∧ ∃ u, u <+: w ∧ u ∈ right.words) ∨
      (w ∈ right.words ∧ ∃ u, u <+: w ∧ u ∈ left.words) := by
  exact or_congr (and_congr_right fun _ => exists_prefix) (and_congr_right fun _ => exists_prefix)

/-- `[*]`. -/
theorem Sere.mem_words_trueStar (w : List Valuation) : w ∈ (Sere.star (.boolean .trueNode)).words := by
  rw [mem_words, mem_star_boolean]
  intro x member
  obtain ⟨letter, -, rfl⟩ := List.mem_map.mp member
  exact meets_some.mpr rfl

/-- `[*n]`. -/
theorem Sere.mem_words_true_pow (n : Nat) : w ∈ (Sere.boolean .trueNode).words ^ n ↔ w.length = n := by
  induction n generalizing w with
  | zero => rw [pow_zero, Language.mem_one, List.length_eq_zero_iff]
  | succ n ih =>
    rw [pow_succ', Language.mem_mul]
    constructor
    · rintro ⟨u, first, v, rest, rfl⟩
      obtain ⟨letter, rfl, -⟩ := mem_words_boolean.mp first
      rw [List.singleton_append, List.length_cons, ih.mp rest]
    · intro length
      cases w with
      | nil => cases length
      | cons letter w =>
        exact ⟨[letter], mem_words_boolean.mpr ⟨letter, rfl, rfl⟩, w, ih.mpr (Nat.succ.inj length), rfl⟩

/-- `(~b)[*]`. -/
theorem Sere.mem_words_without : w ∈ (Sere.star (.boolean (buildBoolNot b))).words ↔ occurrences b w = 0 := by
  rw [mem_words, mem_star_boolean]
  unfold occurrences
  rw [List.countP_eq_zero]
  constructor
  · intro all letter member
    have holds := meets_some.mp (all (some letter) (List.mem_map_of_mem member))
    simpa using holds
  · intro none x member
    obtain ⟨letter, inside, rfl⟩ := List.mem_map.mp member
    rw [meets_some]
    simpa using none letter inside

theorem rewriteBounds_words (seq : Sere) (ordered : range.Ordered) :
    ∃ res, rewriteBounds seq range.parseCount = .ok res ∧
      ∀ w, w ∈ res.words ↔ ∃ k, range.asRead.Allows k ∧ w ∈ seq.words ^ k := by
  have power (k : Nat) (w : List Valuation) : w ∈ seq.words ^ k ↔ w.map some ∈ seq.language ^ k := by
    unfold Sere.words
    rw [← preimage_pow, mem_preimage]
  have once (n : Nat) : ∃ res, rewriteStarRepeatSeq seq n n = .ok res ∧
      ∀ w, w ∈ res.words ↔ ∃ k, k = n ∧ w ∈ seq.words ^ k := by
    obtain ⟨res, run, language⟩ := rewriteStarRepeatSeq_language seq (Nat.le_refl n)
    refine ⟨res, run, fun w => ?_⟩
    rw [Sere.mem_words, language]
    constructor
    · rintro ⟨k, lower, upper, inside⟩
      exact ⟨k, Nat.le_antisymm upper lower, (power k w).mpr inside⟩
    · rintro ⟨k, rfl, inside⟩
      exact ⟨k, Nat.le_refl k, Nat.le_refl k, (power k w).mp inside⟩
  cases range with
  | exactly n => exact once n
  | atLeast lo => exact once lo
  | between lo hi =>
    obtain ⟨res, run, language⟩ := rewriteStarRepeatSeq_language seq ordered
    refine ⟨res, run, fun w => ?_⟩
    rw [Sere.mem_words, language]
    constructor
    · rintro ⟨k, lower, upper, inside⟩
      exact ⟨k, ⟨lower, upper⟩, (power k w).mpr inside⟩
    · rintro ⟨k, ⟨lower, upper⟩, inside⟩
      exact ⟨k, lower, upper, (power k w).mp inside⟩

/-- Repetitions of `b[->]` count the occurrences of the boolean. -/
theorem mem_words_goto_pow (k : Nat) : w ∈ (Sere.concat (.star (.boolean (buildBoolNot b))) (.boolean b)).words ^ k ↔
      occurrences b w = k ∧ ∀ letter ∈ w.getLast?, b.eval letter = true := by
  unfold Sere.words
  rw [← preimage_pow, mem_preimage, mem_goto]

theorem rewriteGoto_words (b : BoolNode) (range : Option SereRange) (ordered : ∀ r ∈ range, r.Ordered) :
    ∃ res, rewriteGoto b (range.map SereRange.parseCount) = .ok res ∧
      res.words = (SourceSere.goto (range.map SereRange.asRead) b).language := by
  cases range with
  | none =>
    refine ⟨_, rfl, ?_⟩
    ext w
    rw [← pow_one (Sere.words _), mem_words_goto_pow]
    exact Iff.rfl
  | some range =>
    obtain ⟨res, run, words⟩ := rewriteBounds_words
      (.concat (.star (.boolean (buildBoolNot b))) (.boolean b)) (ordered range rfl)
    refine ⟨res, run, ?_⟩
    ext w
    rw [words]
    simp only [mem_words_goto_pow]
    constructor
    · rintro ⟨k, allows, rfl, last⟩
      exact ⟨allows, last⟩
    · rintro ⟨allows, last⟩
      exact ⟨_, allows, rfl, last⟩

theorem rewriteStar_words (seq : Sere) (range : Option SereRange) (ordered : ∀ r ∈ range, r.Ordered) :
    ∃ res, rewriteStar seq (range.map SereRange.parseCount) = .ok res ∧
      ∀ w, w ∈ res.words ↔ (range = none ∧ w ∈ seq.words∗) ∨
        ∃ r ∈ range, ∃ k, r.asRead.Allows k ∧ w ∈ seq.words ^ k := by
  cases range with
  | none =>
    refine ⟨_, rfl, fun w => ?_⟩
    rw [Sere.words_star]
    simp
  | some range =>
    obtain ⟨res, run, words⟩ := rewriteBounds_words seq (ordered range rfl)
    refine ⟨res, run, fun w => ?_⟩
    rw [words]
    simp

theorem mem_words_within :
    w ∈ (rewriteWithin left right).words ↔ w ∈ right.words ∧ ∃ u v x, w = u ++ v ++ x ∧ v ∈ left.words := by
  unfold rewriteWithin
  rw [Sere.words_matchAnd, Sere.words_concat, Sere.words_concat]
  constructor
  · rintro ⟨inside, outer⟩
    obtain ⟨front, first, x, -, rfl⟩ := Language.mem_mul.mp inside
    obtain ⟨u, -, v, inner, rfl⟩ := Language.mem_mul.mp first
    exact ⟨outer, u, v, x, rfl, inner⟩
  · rintro ⟨outer, u, v, x, rfl, inner⟩
    have first := append_mem u (Sere.mem_words_trueStar u) inner
    exact ⟨append_mem (u ++ v) first (Sere.mem_words_trueStar x), outer⟩

/-- `[+]`. -/
theorem mem_words_anyPlus : w ∈ (Sere.plus (.boolean .trueNode)).words ↔ w ≠ [] := by
  rw [Sere.words_plus, Language.mem_mul]
  constructor
  · rintro ⟨u, first, v, -, rfl⟩
    obtain ⟨letter, rfl, -⟩ := Sere.mem_words_boolean.mp first
    exact List.cons_ne_nil _ _
  · intro nonempty
    obtain ⟨letter, rest, rfl⟩ := List.exists_cons_of_ne_nil nonempty
    refine ⟨[letter], Sere.mem_words_boolean.mpr ⟨letter, rfl, rfl⟩, rest, ?_, rfl⟩
    rw [← Sere.words_star]
    exact Sere.mem_words_trueStar rest

theorem mem_goto_mul (p : Nat → Prop) :
    (∃ u v, (p (occurrences b u) ∧ ∀ letter ∈ u.getLast?, b.eval letter = true) ∧ occurrences b v = 0 ∧ u ++ v = w) ↔
      p (occurrences b w) := by
  constructor
  · rintro ⟨u, v, ⟨count, -⟩, none, rfl⟩
    unfold occurrences at count none ⊢
    rw [List.countP_append, none]
    exact count
  · intro count
    have split := List.rdropWhile_append_rtakeWhile (l := w) (p := fun x => !b.eval x)
    have without : occurrences b (w.rtakeWhile fun x => !b.eval x) = 0 := by
      unfold occurrences
      rw [List.countP_eq_zero]
      intro x member
      have clear := List.mem_rtakeWhile_imp member
      simpa using clear
    have same : occurrences b (w.rdropWhile fun x => !b.eval x) = occurrences b w := by
      unfold occurrences at without ⊢
      conv_rhs => rw [← split, List.countP_append, without]
      rfl
    refine ⟨_, _, ⟨same ▸ count, fun letter last => ?_⟩, without, split⟩
    have nonempty : w.rdropWhile (fun x => !b.eval x) ≠ [] := by
      intro empty
      rw [empty] at last
      cases last
    have ends := List.rdropWhile_last_not (fun x => !b.eval x) w nonempty
    rw [List.getLast?_eq_some_getLast nonempty, Option.mem_some_iff] at last
    rw [last] at ends
    simpa using ends

/-- `Rewrite_Boolean` keeps the booleans without constants. -/
theorem rewriteBoolean_ok (parsed : b.Parsed) : rewriteBoolean b = .ok b := by
  induction b with
  | hdlExpr expr => rfl
  | trueNode | falseNode | eos => exact parsed.elim
  | notBool origin boolean ih =>
    rw [rewriteBoolean, ih parsed]
    rfl
  | andBool origin left right ihl ihr | orBool origin left right ihl ihr | impBool origin left right ihl ihr =>
    rw [rewriteBoolean, ihl parsed.1, ihr parsed.2]
    rfl

/-- `Rewrite_Boolean` fails at a constant. -/
theorem parsed_of_rewriteBoolean {b' : BoolNode} (run : rewriteBoolean b = .ok b') : b.Parsed := by
  induction b generalizing b' with
  | hdlExpr expr => trivial
  | trueNode | falseNode | eos => cases run
  | notBool origin boolean ih =>
    obtain ⟨_, first, -⟩ := Fallible.bind_ok.mp run
    exact ih first
  | andBool origin left right ihl ihr | orBool origin left right ihl ihr | impBool origin left right ihl ihr =>
    obtain ⟨_, first, rest⟩ := Fallible.bind_ok.mp run
    obtain ⟨_, second, -⟩ := Fallible.bind_ok.mp rest
    exact ⟨ihl first, ihr second⟩

namespace SourceSere

/-- The nodes of the sequence. -/
def nodes (s : SourceSere SereRange) : SourceSere NodeBounds := s.map SereRange.parseCount

/-- The sequence as its bounds are read. -/
def asRead (s : SourceSere SereRange) : SourceSere SereRange := s.map SereRange.asRead

/-- `Rewrite_SERE` fails at a boolean with a constant. -/
theorem parsed_of_rewriteSere {s : SourceSere R} {f : R → NodeBounds} {res : Sere}
    (run : rewriteSere (s.map f) = .ok res) : s.Parsed := by
  induction s generalizing res with
  | braced sere ih => exact ih run
  | concat left right ihl ihr | fusion left right ihl ihr | within left right ihl ihr | matchAnd left right ihl ihr
  | and left right ihl ihr | or left right ihl ihr =>
    obtain ⟨_, first, rest⟩ := Fallible.bind_ok.mp run
    obtain ⟨_, second, -⟩ := Fallible.bind_ok.mp rest
    exact ⟨ihl first, ihr second⟩
  | star range sere ih | plus sere ih =>
    obtain ⟨_, first, -⟩ := Fallible.bind_ok.mp run
    exact ih first
  | anyStar range | anyPlus => trivial
  | boolean b | goto range b | equal range b =>
    obtain ⟨_, first, -⟩ := Fallible.bind_ok.mp run
    exact parsed_of_rewriteBoolean first

/-- Both operands are rewritten, and what is built of the results has the words. -/
theorem rewrites_both {first second : Outcome Sere} {l r words : Language Valuation} {build : Sere → Sere → Sere}
    (left : ∃ res, first = .ok res ∧ res.words = l) (right : ∃ res, second = .ok res ∧ res.words = r)
    (built : ∀ s s', s.words = l → s'.words = r → (build s s').words = words) :
    ∃ res, (first >>= fun s => second >>= fun s' => .ok (build s s')) = .ok res ∧ res.words = words := by
  obtain ⟨s, rfl, wordsL⟩ := left
  obtain ⟨s', rfl, wordsR⟩ := right
  exact ⟨build s s', rfl, built s s' wordsL wordsR⟩

/-- `Rewrite_SERE` returns a sequence with the words of the sequence as its bounds are read. -/
theorem rewriteSere_words (s : SourceSere SereRange) (ordered : s.Ordered) (parsed : s.Parsed) :
    ∃ res, rewriteSere s.nodes = .ok res ∧ res.words = s.asRead.language := by
  induction s with
  | boolean b =>
    refine ⟨.boolean b, ?_, Set.ext fun w => Sere.mem_words_boolean⟩
    show (rewriteBoolean b >>= _) = _
    rw [rewriteBoolean_ok parsed]
    rfl
  | braced sere ih => exact ih ordered parsed
  | concat left right ihl ihr | matchAnd left right ihl ihr | or left right ihl ihr =>
    refine rewrites_both (ihl ordered.1 parsed.1) (ihr ordered.2 parsed.2) fun l r wordsL wordsR => ?_
    simp only [Sere.words_concat, Sere.words_matchAnd, Sere.words_or, wordsL, wordsR]
    rfl
  | fusion left right ihl ihr | within left right ihl ihr | and left right ihl ihr =>
    refine rewrites_both (ihl ordered.1 parsed.1) (ihr ordered.2 parsed.2) fun l r wordsL wordsR => ?_
    ext w
    simp only [Sere.mem_words_fusion, mem_words_within, Sere.mem_words_and, wordsL, wordsR]
    exact Iff.rfl
  | star range sere ih =>
    obtain ⟨s, runS, wordsS⟩ := ih ordered.2 parsed
    obtain ⟨res, run, words⟩ := rewriteStar_words s range ordered.1
    refine ⟨res, Fallible.bind_ok.mpr ⟨s, runS, run⟩, ?_⟩
    ext w
    rw [words, wordsS]
    cases range with
    | none => simp [asRead, map, language]
    | some range =>
      show _ ↔ ∃ k, range.asRead.Allows k ∧ w ∈ sere.asRead.language ^ k
      simp
  | anyStar range =>
    obtain ⟨res, run, words⟩ := rewriteStar_words (.boolean .trueNode) range ordered
    refine ⟨res, run, ?_⟩
    ext w
    rw [words]
    cases range with
    | none =>
      refine iff_of_true (.inl ⟨rfl, ?_⟩) (Set.mem_univ w)
      rw [← Sere.words_star]
      exact Sere.mem_words_trueStar w
    | some range =>
      show _ ↔ range.asRead.Allows w.length
      simp [Sere.mem_words_true_pow]
  | plus sere ih =>
    obtain ⟨s, runS, wordsS⟩ := ih ordered parsed
    refine ⟨.plus s, Fallible.bind_ok.mpr ⟨s, runS, rfl⟩, ?_⟩
    rw [Sere.words_plus, wordsS]
    rfl
  | anyPlus =>
    refine ⟨_, rfl, ?_⟩
    ext w
    exact mem_words_anyPlus
  | goto range b =>
    obtain ⟨res, run, words⟩ := rewriteGoto_words b range ordered
    exact ⟨res, Fallible.bind_ok.mpr ⟨b, rewriteBoolean_ok parsed, run⟩, words⟩
  | equal range b =>
    obtain ⟨res, run, words⟩ := rewriteGoto_words b (some range) fun r same => Option.some.inj same ▸ ordered
    refine ⟨_, Fallible.bind_ok.mpr ⟨b, rewriteBoolean_ok parsed, Fallible.bind_ok.mpr ⟨res, run, rfl⟩⟩, ?_⟩
    ext w
    refine Iff.trans ?_ (mem_goto_mul range.asRead.Allows)
    rw [Sere.words_concat, words, Language.mem_mul]
    constructor
    · rintro ⟨u, first, v, without, same⟩
      exact ⟨u, v, first, Sere.mem_words_without.mp without, same⟩
    · rintro ⟨u, v, first, without, same⟩
      exact ⟨u, first, v, Sere.mem_words_without.mpr without, same⟩

/-- For a sequence with ordered ranges, `Rewrite_SERE` returns one with the same words exactly when its booleans are
such as the parser makes, and reading each range up to `inf` as its lower bound leaves the words as they are. -/
theorem rewrite_sere_iff (s : SourceSere SereRange) (ordered : s.Ordered) :
    (∃ res, rewriteSere s.nodes = .ok res ∧ ∀ w, w.map some ∈ res.language ↔ w ∈ s.language) ↔
      s.Parsed ∧ s.asRead.language = s.language := by
  constructor
  · rintro ⟨res, run, same⟩
    have parsed := parsed_of_rewriteSere run
    obtain ⟨res', run', words⟩ := rewriteSere_words s ordered parsed
    obtain rfl : res = res' := Except.ok.inj (run.symm.trans run')
    exact ⟨parsed, words.symm.trans (Set.ext same)⟩
  · rintro ⟨parsed, same⟩
    obtain ⟨res, run, words⟩ := rewriteSere_words s ordered parsed
    refine ⟨res, run, fun w => ?_⟩
    rw [← same, ← words]
    exact Iff.rfl

/-- `{a[*2 to 3]; b[=1]} within [*]` is rewritten. -/
theorem rewrite_sere_iff_within : ∃ res,
    rewriteSere (nodes (.within (.concat (.star (some (.between 2 3)) (.boolean (.hdlExpr 0)))
      (.equal (.exactly 1) (.hdlExpr 1))) (.anyStar none))) = .ok res ∧ ∀ w, w.map some ∈ res.language ↔
      w ∈ (SourceSere.within (.concat (.star (some (.between 2 3)) (.boolean (.hdlExpr 0)))
        (.equal (.exactly 1) (.hdlExpr 1))) (.anyStar none)).language := by
  have ordered : Ordered (.within (.concat (.star (some (.between 2 3)) (.boolean (.hdlExpr 0)))
      (.equal (.exactly 1) (.hdlExpr 1))) (.anyStar none)) := by
    refine ⟨⟨⟨?_, trivial⟩, trivial⟩, fun r none => (nomatch none)⟩
    rintro r ⟨⟩
    exact (by decide : 2 ≤ 3)
  exact (rewrite_sere_iff _ ordered).mpr ⟨⟨⟨trivial, trivial⟩, trivial⟩, rfl⟩

/-- `{a[*1 to inf]}` is rewritten to one A, which does not match two of them. -/
theorem rewrite_sere_inf : ¬ ∀ s : SourceSere SereRange, s.Ordered → s.Parsed →
      ∃ res, rewriteSere s.nodes = .ok res ∧ ∀ w, w.map some ∈ res.language ↔ w ∈ s.language := by
  intro claim
  obtain ⟨res, run, same⟩ := claim (.star (some (.atLeast 1)) (.boolean (.hdlExpr 0)))
    ⟨fun r inside => Option.some.inj inside ▸ trivial, trivial⟩ trivial
  obtain rfl : Sere.boolean (.hdlExpr 0) = res := Except.ok.inj run
  let letter : Valuation := ⟨fun _ => true, false⟩
  have once : [letter] ∈ (SourceSere.boolean (.hdlExpr 0)).language := ⟨letter, rfl, rfl⟩
  have twice : [letter, letter] ∈ (SourceSere.star (some (.atLeast 1)) (.boolean (.hdlExpr 0))).language := by
    refine ⟨2, (by decide : 1 ≤ 2), ?_⟩
    rw [pow_two]
    exact append_mem [letter] once once
  obtain ⟨x, two, -⟩ := (same _).mpr twice
  exact absurd (congrArg List.length two) (by decide : ¬ 2 = 1)

end SourceSere

end Ghdl.Psl
