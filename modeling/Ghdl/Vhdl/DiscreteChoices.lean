import Ghdl.Lists.Intervals
import Ghdl.Sorting.HeapSort
import Ghdl.Vhdl.Aggregates

/-!
# Discrete choices

The static choices of a case statement or of an aggregate are sorted by their low bounds and visited with one running
position. A null range is visited as the other choices are, so that it may be reported, or set the position back. When
the bounds of the choices are those of the first and of the last one, a null range at the end can make them a null range,
and then nothing is checked.
-/

namespace Ghdl.SemExpr

open Evaluation Fallible

/-- A choice that is locally static. -/
inductive StaticChoice
  | byExpression (pos : Int)
  | byRange (range : Range)

/-- A choice of a case statement, or a named one of an aggregate. -/
inductive CaseChoice
  | static (choice : StaticChoice)
  | byOthers

/-- `Get_Low_Limit`. -/
def getLowLimit (range : Range) : Int :=
  match range.direction with
  | .iirTo => range.left
  | .iirDownto => range.right

/-- `Get_High_Limit`. -/
def getHighLimit (range : Range) : Int :=
  match range.direction with
  | .iirTo => range.right
  | .iirDownto => range.left

/-- The position of `Get_Assoc_Low`. -/
def getAssocLow : StaticChoice → Int
  | .byExpression pos => pos
  | .byRange range => getLowLimit range

/-- The position of `Get_Assoc_High`. -/
def getAssocHigh : StaticChoice → Int
  | .byExpression pos => pos
  | .byRange range => getHighLimit range

/-- The subtype of the choices. -/
structure DiscreteType where
  /-- `Type_Has_Bounds`. -/
  hasBounds : Bool
  /-- `Get_Type_Staticness` is `Locally`. -/
  static : Bool
  /-- `Get_Range_Constraint`. -/
  range : Range

/-- The messages of `Sem_Check_Continuous_Choices`. -/
inductive ChoiceMessage
  /-- "%n out of index range" -/
  | outOfRange (choice : StaticChoice)
  /-- "no choice for L", or "no choices for L to H" -/
  | noChoice (l h : Int)
  /-- "duplicate choice for L" -/
  | duplicateChoice (l : Int)
  /-- "duplicate choices for L to H" -/
  | duplicateChoices (l h : Int)

/-- `Eval_Is_In_Bound` and `Eval_Is_Range_In_Bound`: a null range is in bounds. -/
def isInBound (subType : Range) : StaticChoice → Bool
  | .byExpression pos => subType.Contains pos
  | .byRange range => range.length = 0 ∨ subType.Contains range.left ∧ subType.Contains range.right

/-- The choices out of the bounds of the subtype, when these are known. -/
def outOfRange (subType : DiscreteType) (choices : List StaticChoice) : List ChoiceMessage :=
  if subType.hasBounds ∧ subType.static then
    (choices.filter fun c => ¬ isInBound subType.range c).map .outOfRange
  else []

/-- `Fill_Choices_Array`. -/
def fillChoices (choices : List CaseChoice) : List StaticChoice :=
  choices.filterMap fun
    | .static choice => some choice
    | .byOthers => none

/-- `Info.Others_Choice` is not `Null_Iir`. -/
def hasOthers (choices : List CaseChoice) : Bool :=
  choices.any fun
    | .byOthers => true
    | .static _ => false

/-- `Lt` of `Sort_Discrete_Choices`. -/
def assocLt (op1 op2 : StaticChoice) : Bool := getAssocLow op1 < getAssocLow op2

/-- `Info.Arr` after `Sort_Discrete_Choices`. -/
def sortDiscreteChoices (choices : List CaseChoice) : List StaticChoice :=
  Sorting.heapSortList assocLt (fillChoices choices)

/-- `Low` and `High`. -/
def lowHigh (arr : List StaticChoice) : Option (Int × Int) :=
  match arr.head?, arr.getLast? with
  | some first, some last => some (getAssocLow first, getAssocHigh last)
  | _, _ => none

/-- `Lb` and `Hb`. -/
def bounds (subType : DiscreteType) (isSubRange : Bool) (arr : List StaticChoice) : Option (Int × Int) :=
  if ¬ isSubRange ∧ subType.static ∧ subType.hasBounds then
    some (getLowLimit subType.range, getHighLimit subType.range)
  else lowHigh arr

/-- `Iir_Int64'Last`. -/
def int64Last : Int := 2 ^ 63 - 1

/-- An addition of one with `Iir_Int64`, which may overflow. -/
def succ64 (pos : Int) : Except Failure Int := if pos < int64Last then .ok (pos + 1) else .error .constraintError

/-- The messages for the choice at E_POS, when the choices before it end before POS. -/
def visitMessages (others : Bool) (pos ePos : Int) : List ChoiceMessage :=
  if pos < ePos ∧ ¬ others then [.noChoice pos (ePos - 1)]
  else if pos > ePos then
    if pos = ePos + 1 then [.duplicateChoice ePos] else [.duplicateChoices ePos pos]
  else []

/-- The loop over the sorted choices, which returns the position and the messages. -/
def sweep (others : Bool) (posMax : Int) : List StaticChoice → Int → Except Failure (Int × List ChoiceMessage)
  | [], pos => .ok (pos, [])
  | c :: rest, pos =>
    let ePos := getAssocLow c
    if ePos > posMax then do
      -- Choice out of bound, already handled. Avoid other errors.
      let next ← succ64 posMax
      return (next, [.noChoice pos posMax])
    else do
      let next ← succ64 (getAssocHigh c)
      let (pos', messages) ← sweep others posMax rest next
      return (pos', visitMessages others pos ePos ++ messages)

/-- The check of the choices between `Lb` and `Hb`. -/
def checkBetween (others : Bool) (lb hb : Int) (arr : List StaticChoice) : Except Failure (List ChoiceMessage) :=
  -- Null range.
  if lb > hb then .ok []
  else do
    let (pos, messages) ← sweep others hb arr lb
    let next ← succ64 hb
    return messages ++ if pos ≠ next ∧ ¬ others then [.noChoice pos hb] else []

/-- `Sem_Check_Continuous_Choices`, with the messages, and with `Low` and `High`. -/
def semCheckContinuousChoices (subType : DiscreteType) (isSubRange : Bool) (choices : List CaseChoice) :
    Except Failure (List ChoiceMessage × Option (Int × Int)) :=
  let errors := outOfRange subType (fillChoices choices)
  if ¬ errors.isEmpty then .ok (errors, none)
  else
    let arr := sortDiscreteChoices choices
    match bounds subType isSubRange arr with
    | none => .ok ([], lowHigh arr)
    | some (lb, hb) => do
      let messages ← checkBetween (hasOthers choices) lb hb arr
      return (messages, lowHigh arr)

/-- The choice is for a value. -/
def StaticChoice.Contains : StaticChoice → Int → Prop
  | .byExpression pos, p => p = pos
  | .byRange range, p => range.Contains p

variable {c : StaticChoice} {arr : List StaticChoice} {lb hb pos : Int} {others : Bool}

theorem contains_iff (c : StaticChoice) (p : Int) : c.Contains p ↔ Intervals.Contains getAssocLow getAssocHigh c p := by
  cases c with
  | byExpression q =>
    show p = q ↔ q ≤ p ∧ p ≤ q
    omega
  | byRange range =>
    obtain ⟨direction, left, right⟩ := range
    cases direction with
    | iirTo | iirDownto => exact Iff.rfl

theorem isInBound_of_null (subType : Range) (null : getAssocHigh c < getAssocLow c) : isInBound subType c = true := by
  cases c with
  | byExpression q =>
    have null : q < q := null
    omega
  | byRange range =>
    refine decide_eq_true (Or.inl ?_)
    obtain ⟨direction, left, right⟩ := range
    cases direction with
    | iirTo | iirDownto => exact if_pos null

theorem isInBound_of_within (subType : Range) (lower : getLowLimit subType ≤ getAssocLow c)
    (upper : getAssocHigh c ≤ getHighLimit subType) : isInBound subType c = true := by
  by_cases null : getAssocHigh c < getAssocLow c
  · exact isInBound_of_null subType null
  have inside : ∀ p, getAssocLow c ≤ p → p ≤ getAssocHigh c → subType.Contains p := by
    intro p atLeast atMost
    obtain ⟨direction, left, right⟩ := subType
    cases direction with
    | iirTo | iirDownto => exact ⟨Int.le_trans lower atLeast, Int.le_trans atMost upper⟩
  cases c with
  | byExpression q => exact decide_eq_true (inside q (Int.le_refl q) (Int.le_refl q))
  | byRange range =>
    have some := not_lt.mp null
    refine decide_eq_true (Or.inr ?_)
    obtain ⟨direction, left, right⟩ := range
    cases direction with
    | iirTo => exact ⟨inside left (Int.le_refl left) some, inside right some (Int.le_refl right)⟩
    | iirDownto => exact ⟨inside left some (Int.le_refl left), inside right (Int.le_refl right) some⟩

theorem assocLt_comparison : Sorting.Comparison assocLt where
  asymm less := decide_eq_false (lt_asymm (of_decide_eq_true less))
  cotrans {c d} less e := by
    have less : getAssocLow c < getAssocLow d := of_decide_eq_true less
    by_cases before : getAssocLow c < getAssocLow e
    · exact Or.inl (decide_eq_true before)
    · exact Or.inr (decide_eq_true (by omega))

theorem sortDiscreteChoices_perm (choices : List CaseChoice) : (sortDiscreteChoices choices).Perm (fillChoices choices) :=
  Sorting.heapSortList_perm assocLt _

theorem sortDiscreteChoices_sorted (choices : List CaseChoice) :
    (sortDiscreteChoices choices).Pairwise fun c d => getAssocLow c ≤ getAssocLow d :=
  (Sorting.heapSortList_sorted assocLt_comparison _).imp fun notLess => not_lt.mp (of_decide_eq_false notLess)

theorem succ64_ok {next : Int} : succ64 pos = .ok next ↔ pos < int64Last ∧ next = pos + 1 := by
  unfold succ64
  split
  · next less => exact ⟨fun same => ⟨less, (Except.ok.inj same).symm⟩, fun both => congrArg Except.ok both.2.symm⟩
  · next notLess => exact ⟨fun same => (nomatch same), fun both => absurd both.1 notLess⟩

theorem visitMessages_eq_nil (others : Bool) (pos ePos : Int) :
    visitMessages others pos ePos = [] ↔ pos ≤ ePos ∧ (others = false → pos = ePos) := by
  unfold visitMessages
  by_cases gap : pos < ePos ∧ ¬ others = true
  · rw [if_pos gap]
    refine iff_of_false (List.cons_ne_nil _ _) fun both => ?_
    have same := both.2 (Bool.eq_false_iff.mpr gap.2)
    omega
  rw [if_neg gap]
  by_cases again : pos > ePos
  · rw [if_pos again]
    refine iff_of_false ?_ fun both => by omega
    split
    all_goals exact List.cons_ne_nil _ _
  · rw [if_neg again]
    refine iff_of_true rfl ⟨by omega, fun noOthers => ?_⟩
    have notGap : ¬ pos < ePos := fun less => gap ⟨less, by rw [noOthers]; simp⟩
    omega

/-- The loop ends without an overflow. -/
def SweepFits (posMax : Int) (arr : List StaticChoice) : Prop :=
  ∀ c ∈ arr, getAssocLow c ≤ posMax → getAssocHigh c < int64Last

variable (others pos) in
/-- The loop and the end of it overflow only at the last position, and are silent as a sweep is. -/
theorem sweep_spec (sorted : arr.Pairwise fun c d => getAssocLow c ≤ getAssocLow d) (fits : hb < int64Last) :
    (SweepFits hb arr → ∃ pos' messages, sweep others hb arr pos = .ok (pos', messages) ∧
      (messages = [] ∧ (others = false → pos' = hb + 1) ↔ Intervals.Sweeps getAssocLow getAssocHigh others hb arr pos)) ∧
    (∀ r, sweep others hb arr pos = .ok r → SweepFits hb arr) := by
  induction arr generalizing pos with
  | nil =>
    refine ⟨fun _ => ⟨pos, [], rfl, ?_⟩, fun _ _ c inside => absurd inside List.not_mem_nil⟩
    exact ⟨fun both => both.2, fun ends => ⟨rfl, ends⟩⟩
  | cons c rest ih =>
    obtain ⟨after, sorted⟩ := List.pairwise_cons.mp sorted
    unfold sweep
    dsimp only
    by_cases beyond : getAssocLow c > hb
    · rw [if_pos beyond, succ64_ok.mpr ⟨fits, rfl⟩]
      constructor
      · intro _
        refine ⟨hb + 1, [.noChoice pos hb], rfl, iff_of_false (fun both => List.cons_ne_nil _ _ both.1) fun sweeps => ?_⟩
        have upper := sweeps.1
        omega
      · intro _ _ d inside upper
        rcases List.mem_cons.mp inside with rfl | inside
        · omega
        · have later := after d inside
          omega
    rw [if_neg beyond]
    constructor
    · intro all
      obtain ⟨here, all⟩ := List.forall_mem_cons.mp all
      have here := here (by omega)
      obtain ⟨pos', messages, run, silent⟩ := (ih (getAssocHigh c + 1) sorted).1 all
      rw [succ64_ok.mpr ⟨here, rfl⟩]
      refine ⟨pos', visitMessages others pos (getAssocLow c) ++ messages, ?_, ?_⟩
      · show (sweep others hb rest (getAssocHigh c + 1) >>= _) = _
        rw [run]
        rfl
      unfold Intervals.Sweeps
      rw [List.append_eq_nil_iff, visitMessages_eq_nil, ← silent]
      constructor
      · rintro ⟨⟨⟨lower, starts⟩, rest'⟩, ends⟩
        exact ⟨by omega, lower, starts, rest', ends⟩
      · rintro ⟨-, lower, starts, rest', ends⟩
        exact ⟨⟨⟨lower, starts⟩, rest'⟩, ends⟩
    · intro r run
      obtain ⟨next, isNext, run⟩ := bind_ok.mp run
      obtain ⟨r', rest', -⟩ := bind_ok.mp run
      exact List.forall_mem_cons.mpr ⟨fun _ => (succ64_ok.mp isNext).1, (ih next sorted).2 r' rest'⟩

end Ghdl.SemExpr
