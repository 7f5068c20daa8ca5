import Mathlib

/-!
# Sweeps over intervals

Intervals of integers, which may be empty, are sorted by their low bounds and visited with one running position. A visit
is silent when the interval starts at the position, or does not start before it when gaps are allowed; then the position
is the one after its high bound. So an empty interval moves the position too.
-/

namespace Intervals

variable {α : Type} (low high : α → Int)

/-- The integer is in the interval. -/
def Contains (a : α) (p : Int) : Prop := low a ≤ p ∧ p ≤ high a

/-- No integer is in two of the intervals. -/
def Disjoint (l : List α) : Prop := l.Pairwise fun a b => ∀ p, ¬ (Contains low high a p ∧ Contains low high b p)

/-- The intervals cover a range, and nothing else. -/
def Covers (l : List α) (lb hb : Int) : Prop := ∀ p, (lb ≤ p ∧ p ≤ hb) ↔ ∃ a ∈ l, Contains low high a p

/-- The sweep from a position on is silent. -/
def Sweeps (gaps : Bool) (hb : Int) : List α → Int → Prop
  | [], pos => gaps = false → pos = hb + 1
  | a :: l, pos => low a ≤ hb ∧ pos ≤ low a ∧ (gaps = false → pos = low a) ∧ Sweeps gaps hb l (high a + 1)

/-- The intervals start in a range. -/
def Bounded (l : List α) (lb hb : Int) : Prop := ∀ a ∈ l, lb ≤ low a ∧ low a ≤ hb

/-- An interval that is not empty ends before those after it start. -/
def Apart (l : List α) : Prop := l.Pairwise fun a b => low a ≤ high a → high a < low b

/-- An empty interval ends just before it starts. -/
def Tight (l : List α) : Prop := ∀ a ∈ l, high a < low a → high a = low a - 1

/-- No empty interval disturbs the sweep: it starts in the range, behind the intervals before it, and without gaps it
ends just before it starts. -/
structure Undisturbed (gaps : Bool) (l : List α) (lb hb : Int) : Prop where
  bounded : ∀ a ∈ l, high a < low a → lb ≤ low a ∧ low a ≤ hb
  behind : l.Pairwise fun a b => high b < low b → low a ≤ high a → high a < low b
  tight : gaps = false → Tight low high l

variable {low high} {gaps : Bool} {l : List α} {lb hb pos : Int}

theorem sweeps_gaps_iff (sorted : l.Pairwise fun a b => low a ≤ low b) :
    Sweeps low high true hb l pos ↔ Bounded low l pos hb ∧ Apart low high l := by
  induction l generalizing pos with
  | nil => exact iff_of_true (fun isFalse => nomatch isFalse) ⟨fun a inside => absurd inside List.not_mem_nil, List.Pairwise.nil⟩
  | cons a l ih =>
    have sorted := List.pairwise_cons.mp sorted
    unfold Sweeps Bounded Apart
    rw [ih sorted.2, List.forall_mem_cons, List.pairwise_cons]
    constructor
    · intro ⟨upper, lower, _, bounded, apart⟩
      refine ⟨⟨⟨lower, upper⟩, fun b inside => ?_⟩, fun b inside _ => ?_, apart⟩
      · have after := sorted.1 b inside
        have here := bounded b inside
        omega
      · have here := bounded b inside
        omega
    · intro ⟨⟨⟨lower, upper⟩, bounded⟩, after, apart⟩
      refine ⟨upper, lower, fun isFalse => (nomatch isFalse), fun b inside => ?_, apart⟩
      have later := sorted.1 b inside
      have here := bounded b inside
      have behind := after b inside
      omega

theorem sweeps_tight_iff (sorted : l.Pairwise fun a b => low a ≤ low b) (inside : pos ≤ hb + 1) :
    Sweeps low high false hb l pos ↔
      Bounded low l pos hb ∧ Apart low high l ∧ Tight low high l ∧ Covers low high l pos hb := by
  induction l generalizing pos with
  | nil =>
    constructor
    · intro ends
      have ends := ends rfl
      refine ⟨fun a inside => absurd inside List.not_mem_nil, List.Pairwise.nil, fun a inside => absurd inside List.not_mem_nil, ?_⟩
      intro p
      refine iff_of_false (by omega) fun covered => ?_
      obtain ⟨a, inside, -⟩ := covered
      exact absurd inside List.not_mem_nil
    · intro ⟨_, _, _, covers⟩ _
      have none : ¬ (pos ≤ pos ∧ pos ≤ hb) := fun both => by
        obtain ⟨a, inside, -⟩ := (covers pos).mp both
        exact absurd inside List.not_mem_nil
      omega
  | cons a l ih =>
    have sorted := List.pairwise_cons.mp sorted
    constructor
    · intro ⟨upper, lower, starts, rest⟩
      have starts := starts rfl
      -- The next interval, or the end of the range, is where this one ends.
      have ends : low a ≤ high a + 1 ∧ high a + 1 ≤ hb + 1 := by
        cases l with
        | nil =>
          have ends := rest rfl
          omega
        | cons b l =>
          have next := rest.2.2.1 rfl
          have later := sorted.1 b List.mem_cons_self
          have here := rest.1
          omega
      obtain ⟨bounded, apart, tight, covers⟩ := (ih sorted.2 ends.2).mp rest
      refine ⟨List.forall_mem_cons.mpr ⟨⟨lower, upper⟩, fun b member => ?_⟩,
        List.pairwise_cons.mpr ⟨fun b member _ => ?_, apart⟩, List.forall_mem_cons.mpr ⟨fun _ => by omega, tight⟩, fun p => ?_⟩
      · have here := bounded b member
        omega
      · have here := bounded b member
        omega
      · have others := covers p
        unfold Contains at others ⊢
        rw [List.exists_mem_cons_iff, ← others]
        omega
    · intro ⟨bounded, apart, tight, covers⟩
      obtain ⟨here, bounded⟩ := List.forall_mem_cons.mp bounded
      obtain ⟨after, apart⟩ := List.pairwise_cons.mp apart
      obtain ⟨ends, tight⟩ := List.forall_mem_cons.mp tight
      have starts : pos = low a := by
        by_cases gap : pos < low a
        · obtain ⟨b, member, contains⟩ := (covers pos).mp ⟨Int.le_refl pos, by omega⟩
          unfold Contains at contains
          rcases List.mem_cons.mp member with rfl | member
          · omega
          · have later := sorted.1 b member
            omega
        · omega
      have upper : high a + 1 ≤ hb + 1 := by
        by_cases some : low a ≤ high a
        · have last := (covers (high a)).mpr ⟨a, List.mem_cons_self, some, Int.le_refl _⟩
          omega
        · have here' := ends (by omega)
          omega
      have later : ∀ b ∈ l, high a + 1 ≤ low b := by
        intro b member
        have sortedHere := sorted.1 b member
        have behind := after b member
        by_cases some : low a ≤ high a
        · have less := behind some
          omega
        · omega
      refine ⟨here.2, here.1, fun _ => starts, (ih sorted.2 upper).mpr ⟨fun b member => ?_, apart, tight, fun p => ?_⟩⟩
      · exact ⟨later b member, (bounded b member).2⟩
      constructor
      · intro both
        have atLeast : low a ≤ high a + 1 := by
          by_cases some : low a ≤ high a
          · omega
          · have here' := ends (by omega)
            omega
        obtain ⟨b, member, contains⟩ := (covers p).mp ⟨by omega, both.2⟩
        rcases List.mem_cons.mp member with rfl | member
        · unfold Contains at contains
          omega
        · exact ⟨b, member, contains⟩
      · intro ⟨b, member, contains⟩
        have both := (covers p).mpr ⟨b, List.mem_cons_of_mem a member, contains⟩
        have behind := later b member
        unfold Contains at contains
        omega

theorem Apart.disjoint (apart : Apart low high l) : Disjoint low high l :=
  apart.imp fun {a b} before p both => by
    unfold Contains at both
    omega

variable (gaps) in
/-- The sweep is silent exactly when the intervals are disjoint and, without gaps, cover the range, and no empty
interval disturbs it. -/
theorem sweeps_iff (sorted : l.Pairwise fun a b => low a ≤ low b) (some : lb ≤ hb)
    (inside : Undisturbed low high gaps l lb hb → ∀ a ∈ l, low a ≤ high a → lb ≤ low a ∧ low a ≤ hb) :
    Sweeps low high gaps hb l lb ↔
      (Disjoint low high l ∧ (gaps = false → Covers low high l lb hb)) ∧ Undisturbed low high gaps l lb hb := by
  have whole : Sweeps low high gaps hb l lb ↔
      Bounded low l lb hb ∧ Apart low high l ∧ (gaps = false → Tight low high l ∧ Covers low high l lb hb) := by
    cases gaps with
    | true =>
      rw [sweeps_gaps_iff sorted]
      exact ⟨fun both => ⟨both.1, both.2, fun isFalse => nomatch isFalse⟩, fun all => ⟨all.1, all.2.1⟩⟩
    | false =>
      rw [sweeps_tight_iff sorted (by omega)]
      exact ⟨fun all => ⟨all.1, all.2.1, fun _ => all.2.2⟩, fun all => ⟨all.1, all.2.1, all.2.2 rfl⟩⟩
  rw [whole]
  constructor
  · intro ⟨bounded, apart, exact⟩
    refine ⟨⟨apart.disjoint, fun noGaps => (exact noGaps).2⟩, ?_⟩
    exact {
      bounded := fun a member _ => bounded a member
      behind := apart.imp fun before _ nonempty => before nonempty
      tight := fun noGaps => (exact noGaps).1 }
  · intro ⟨⟨disjoint, covers⟩, undisturbed⟩
    refine ⟨fun a member => ?_, ?_, fun noGaps => ⟨undisturbed.tight noGaps, covers noGaps⟩⟩
    · by_cases empty : high a < low a
      · exact undisturbed.bounded a member empty
      · exact inside undisturbed a member (by omega)
    have three := (sorted.and disjoint).and undisturbed.behind
    refine three.imp fun {a b} all nonempty => ?_
    obtain ⟨⟨before, apart⟩, behind⟩ := all
    by_cases empty : high b < low b
    · exact behind empty nonempty
    · have notBoth := apart (low b)
      unfold Contains at notBoth
      omega

end Intervals
