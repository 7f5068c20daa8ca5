import Ghdl.Vhdl.DiscreteChoices

/-!
# Null ranges among discrete choices

For static choices within the subtype, the check is silent exactly when no value has two choices and, without others,
each value has one, as long as no null range disturbs the sweep and no position overflows.
-/

namespace Ghdl.SemExpr

open Evaluation Fallible

/-- No value has two choices, and without others each value between the bounds, and no other one, has a choice. -/
def Correct (bounds : Option (Int × Int)) (choices : List CaseChoice) : Prop :=
  ((fillChoices choices).Pairwise fun c d => ∀ p, ¬ (c.Contains p ∧ d.Contains p)) ∧
    (.byOthers ∉ choices → ∀ p, (∃ b, bounds = some b ∧ b.1 ≤ p ∧ p ≤ b.2) ↔ ∃ c ∈ fillChoices choices, c.Contains p)

/-- The choices that are no null ranges are within the subtype, when its bounds are known. -/
def Within (subType : DiscreteType) (choices : List CaseChoice) : Prop :=
  subType.hasBounds = true → subType.static = true → ∀ c ∈ fillChoices choices, getAssocLow c ≤ getAssocHigh c →
    getLowLimit subType.range ≤ getAssocLow c ∧ getAssocHigh c ≤ getHighLimit subType.range

/-- Between bounds that are not those of a null range, no position overflows, and no null range disturbs the sweep
over correct choices. Otherwise, where nothing is checked, no value has two choices and without others none has one. -/
def SweepMeets (lb hb : Int) (choices : List CaseChoice) : Prop :=
  if hb < lb then
    ((fillChoices choices).Pairwise fun c d => ∀ p, ¬ (c.Contains p ∧ d.Contains p)) ∧
      (.byOthers ∉ choices → ∀ c ∈ fillChoices choices, getAssocHigh c < getAssocLow c)
  else
    hb < int64Last ∧ SweepFits hb (fillChoices choices) ∧
      (Correct (some (lb, hb)) choices →
        Intervals.Undisturbed getAssocLow getAssocHigh (hasOthers choices) (sortDiscreteChoices choices) lb hb)

/-- The condition, when there are bounds. -/
def ChoicesMeet (subType : DiscreteType) (isSubRange : Bool) (choices : List CaseChoice) : Prop :=
  ∀ lb hb, bounds subType isSubRange (sortDiscreteChoices choices) = some (lb, hb) → SweepMeets lb hb choices

variable {choices : List CaseChoice} {subType : DiscreteType} {isSubRange others : Bool} {lb hb : Int}

theorem hasOthers_iff : hasOthers choices = true ↔ .byOthers ∈ choices := by
  unfold hasOthers
  rw [List.any_eq_true]
  constructor
  · intro ⟨c, member, isOthers⟩
    cases c with
    | static choice => cases isOthers
    | byOthers => exact member
  · intro member
    exact ⟨.byOthers, member, rfl⟩

theorem not_hasOthers_iff : hasOthers choices = false ↔ .byOthers ∉ choices := by
  rw [← hasOthers_iff, Bool.not_eq_true]

theorem correct_iff : Correct (some (lb, hb)) choices ↔
    Intervals.Disjoint getAssocLow getAssocHigh (sortDiscreteChoices choices) ∧
      (hasOthers choices = false → Intervals.Covers getAssocLow getAssocHigh (sortDiscreteChoices choices) lb hb) := by
  have perm := sortDiscreteChoices_perm choices
  have symmetric : ∀ {c d : StaticChoice}, (∀ p, ¬ (c.Contains p ∧ d.Contains p)) → ∀ p, ¬ (d.Contains p ∧ c.Contains p) :=
    fun apart p both => apart p both.symm
  unfold Correct Intervals.Disjoint Intervals.Covers
  rw [not_hasOthers_iff]
  simp only [← contains_iff]
  rw [perm.pairwise_iff symmetric]
  apply and_congr Iff.rfl
  apply imp_congr Iff.rfl
  apply forall_congr'
  intro p
  have sameRange : (∃ b, some (lb, hb) = some b ∧ b.1 ≤ p ∧ p ≤ b.2) ↔ lb ≤ p ∧ p ≤ hb := by
    constructor
    · intro ⟨b, isBounds, inside⟩
      rw [← Option.some.inj isBounds] at inside
      exact inside
    · intro inside
      exact ⟨(lb, hb), rfl, inside⟩
  have sameChoices : (∃ c ∈ sortDiscreteChoices choices, c.Contains p) ↔ ∃ c ∈ fillChoices choices, c.Contains p := by
    constructor
    · intro ⟨c, member, contains⟩
      exact ⟨c, perm.mem_iff.mp member, contains⟩
    · intro ⟨c, member, contains⟩
      exact ⟨c, perm.mem_iff.mpr member, contains⟩
  rw [sameRange, sameChoices]

theorem inside_bounds (within : Within subType choices)
    (isBounds : bounds subType isSubRange (sortDiscreteChoices choices) = some (lb, hb))
    (undisturbed : Intervals.Undisturbed getAssocLow getAssocHigh others (sortDiscreteChoices choices) lb hb) :
    ∀ c ∈ sortDiscreteChoices choices, getAssocLow c ≤ getAssocHigh c → lb ≤ getAssocLow c ∧ getAssocLow c ≤ hb := by
  intro c member some
  have sorted := sortDiscreteChoices_sorted choices
  unfold bounds at isBounds
  split at isBounds
  · next ofType =>
    have isBounds := Option.some.inj isBounds
    have inside := within ofType.2.2 ofType.2.1 c ((sortDiscreteChoices_perm choices).mem_iff.mp member) some
    obtain ⟨rfl, rfl⟩ := Prod.mk.inj isBounds
    exact ⟨inside.1, Int.le_trans some inside.2⟩
  · -- The bounds are the low one of the first choice and the high one of the last choice.
    generalize sortDiscreteChoices choices = arr at member sorted isBounds undisturbed
    obtain ⟨first, rest, rfl⟩ := List.exists_cons_of_ne_nil (List.ne_nil_of_mem member)
    have isLast : (first :: rest).getLast? = Option.some ((first :: rest).getLast (List.cons_ne_nil _ _)) :=
      List.getLast?_eq_some_getLast _
    unfold lowHigh at isBounds
    rw [isLast] at isBounds
    have isBounds := Option.some.inj isBounds
    have isLb : getAssocLow first = lb := congrArg Prod.fst isBounds
    have isHb : getAssocHigh ((first :: rest).getLast (List.cons_ne_nil _ _)) = hb := congrArg Prod.snd isBounds
    have lastMember := List.getLast_mem (List.cons_ne_nil first rest)
    have lower : getAssocLow first ≤ getAssocLow c := by
      rcases List.mem_cons.mp member with rfl | after
      · exact Int.le_refl _
      · exact (List.pairwise_cons.mp sorted).1 c after
    have upper : getAssocLow c ≤ getAssocLow ((first :: rest).getLast (List.cons_ne_nil _ _)) := by
      have split := List.dropLast_append_getLast (List.cons_ne_nil first rest)
      rw [← split] at sorted member
      rcases List.mem_append.mp member with before | isLast
      · exact (List.pairwise_append.mp sorted).2.2 c before _ (List.mem_singleton.mpr rfl)
      · rw [List.mem_singleton.mp isLast]
    have last := undisturbed.bounded _ lastMember
    omega

theorem outOfRange_of_within (within : Within subType choices) : outOfRange subType (fillChoices choices) = [] := by
  unfold outOfRange
  split
  · next known =>
    rw [List.map_eq_nil_iff, List.filter_eq_nil_iff]
    intro c member
    have inBound : isInBound subType.range c = true := by
      by_cases null : getAssocHigh c < getAssocLow c
      · exact isInBound_of_null subType.range null
      · have inside := within known.1 known.2 c member (by omega)
        exact isInBound_of_within subType.range inside.1 inside.2
    simp [inBound]
  · rfl

theorem checkBetween_iff (choices : List CaseChoice) (lb hb : Int)
    (inside : ∀ gaps, Intervals.Undisturbed getAssocLow getAssocHigh gaps (sortDiscreteChoices choices) lb hb →
      ∀ c ∈ sortDiscreteChoices choices, getAssocLow c ≤ getAssocHigh c → lb ≤ getAssocLow c ∧ getAssocLow c ≤ hb) :
    (∃ messages, checkBetween (hasOthers choices) lb hb (sortDiscreteChoices choices) = .ok messages ∧
      (messages = [] ↔ Correct (some (lb, hb)) choices)) ↔ SweepMeets lb hb choices := by
  have perm := sortDiscreteChoices_perm choices
  have sorted := sortDiscreteChoices_sorted choices
  have sameFits : SweepFits hb (sortDiscreteChoices choices) ↔ SweepFits hb (fillChoices choices) :=
    forall_congr' fun c => imp_congr perm.mem_iff Iff.rfl
  unfold checkBetween SweepMeets
  by_cases null : hb < lb
  · rw [if_pos null, if_pos null]
    have isCorrect : (∃ messages, (.ok [] : Except Failure (List ChoiceMessage)) = .ok messages ∧
        (messages = [] ↔ Correct (some (lb, hb)) choices)) ↔ Correct (some (lb, hb)) choices := by
      constructor
      · intro ⟨messages, isNil, silent⟩
        exact silent.mp (Except.ok.inj isNil).symm
      · intro correct
        exact ⟨[], rfl, iff_of_true rfl correct⟩
    rw [isCorrect]
    apply and_congr Iff.rfl
    apply imp_congr Iff.rfl
    constructor
    · intro covers c member
      by_cases some : getAssocLow c ≤ getAssocHigh c
      · have contains : c.Contains (getAssocLow c) := (contains_iff c _).mpr ⟨Int.le_refl _, some⟩
        obtain ⟨b, isBounds, lower, upper⟩ := (covers _).mpr ⟨c, member, contains⟩
        rw [← Option.some.inj isBounds] at lower upper
        dsimp only at lower upper
        omega
      · omega
    · intro empty p
      constructor
      · intro ⟨b, isBounds, lower, upper⟩
        rw [← Option.some.inj isBounds] at lower upper
        dsimp only at lower upper
        omega
      · intro ⟨c, member, contains⟩
        have isEmpty := empty c member
        have both := (contains_iff c p).mp contains
        unfold Intervals.Contains at both
        omega
  rw [if_neg null, if_neg null]
  have sweeps := Intervals.sweeps_iff (hasOthers choices) sorted (not_lt.mp null) (inside _)
  rw [← correct_iff] at sweeps
  constructor
  · intro ⟨messages, run, silent⟩
    obtain ⟨⟨pos, found⟩, swept, run⟩ := bind_ok.mp run
    obtain ⟨next, isNext, run⟩ := bind_ok.mp run
    obtain ⟨fits, rfl⟩ := succ64_ok.mp isNext
    obtain ⟨ok, needed⟩ := sweep_spec lb (hasOthers choices) sorted fits
    have all := needed _ swept
    refine ⟨fits, sameFits.mp all, fun correct => ?_⟩
    obtain ⟨pos', found', swept', spec⟩ := ok all
    rw [swept] at swept'
    obtain ⟨rfl, rfl⟩ := Prod.mk.inj (Except.ok.inj swept')
    have isNil := silent.mpr correct
    rw [← Except.ok.inj run, List.append_eq_nil_iff] at isNil
    have ends : hasOthers choices = false → pos = hb + 1 := by
      intro noOthers
      by_cases same : pos = hb + 1
      · exact same
      · have last := isNil.2
        rw [if_pos ⟨same, by rw [noOthers]; simp⟩] at last
        exact absurd last (List.cons_ne_nil _ _)
    exact (sweeps.mp (spec.mp ⟨isNil.1, ends⟩)).2
  · intro ⟨fits, all, undisturbed⟩
    obtain ⟨pos, found, swept, spec⟩ := (sweep_spec lb (hasOthers choices) sorted fits).1 (sameFits.mpr all)
    refine ⟨_, bind_ok.mpr ⟨(pos, found), swept, bind_ok.mpr ⟨hb + 1, succ64_ok.mpr ⟨fits, rfl⟩, rfl⟩⟩, ?_⟩
    have final : (if pos ≠ hb + 1 ∧ ¬ hasOthers choices = true then [ChoiceMessage.noChoice pos hb] else []) = [] ↔
        (hasOthers choices = false → pos = hb + 1) := by
      by_cases gap : pos ≠ hb + 1 ∧ ¬ hasOthers choices = true
      · rw [if_pos gap]
        exact iff_of_false (List.cons_ne_nil _ _) fun ends => gap.1 (ends (Bool.eq_false_iff.mpr gap.2))
      · rw [if_neg gap]
        refine iff_of_true rfl fun noOthers => Classical.byContradiction fun different => gap ⟨different, ?_⟩
        rw [noOthers]
        simp
    rw [List.append_eq_nil_iff, final, spec, sweeps]
    exact ⟨fun both => both.1, fun correct => ⟨correct, undisturbed correct⟩⟩

end Ghdl.SemExpr
