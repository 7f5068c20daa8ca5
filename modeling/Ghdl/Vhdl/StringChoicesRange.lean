import Ghdl.Vhdl.StringChoices

/-!
# Duplicate and missing strings

The number of strings of a length over an element type is a power, which the number of different choices reaches exactly
when none is missing. So the messages of the analysis are right for all choices that can be compared.
-/

namespace Ghdl.SemExpr

open Evaluation Fallible

theorem nbrValues_le (el rounds nbr : Nat) : ∀ value ∈ nbrValues el rounds nbr, value ≤ nbr := by
  induction rounds generalizing nbr with
  | zero => exact fun value inside => absurd inside List.not_mem_nil
  | succ rounds ih =>
    intro value inside
    have quotient := Nat.div_le_self nbr el
    unfold nbrValues at inside
    split at inside
    · rw [List.mem_singleton.mp inside]
      exact Nat.zero_le nbr
    · rcases List.mem_cons.mp inside with rfl | inside
      · exact quotient
      · exact Nat.le_trans (ih _ value inside) quotient

theorem zero_mem_nbrValues {el : Nat} (pos : 0 < el) (rounds nbr : Nat) (some : nbr ≠ 0 ∨ rounds ≠ 0) :
    0 ∈ nbrValues el rounds nbr ↔ nbr < el ^ rounds := by
  induction rounds generalizing nbr with
  | zero =>
    unfold nbrValues
    simp only [List.not_mem_nil, Nat.pow_zero, false_iff]
    omega
  | succ rounds ih =>
    have step : nbr < el ^ (rounds + 1) ↔ nbr / el < el ^ rounds := by
      rw [Nat.div_lt_iff_lt_mul pos, Nat.pow_succ]
    unfold nbrValues
    rw [step]
    split
    · next isZero =>
      rw [isZero]
      exact iff_of_true List.mem_cons_self (Nat.pow_pos pos)
    · next notZero =>
      rw [List.mem_cons, ← ih (nbr / el) (Or.inl notZero)]
      exact or_iff_right fun isZero => notZero isZero.symm

/-- The strings of a length over some elements. -/
def allStrings (elements : List Int) : Nat → List (List Int)
  | 0 => [[]]
  | length + 1 => elements.flatMap fun p => (allStrings elements length).map (p :: ·)

theorem mem_allStrings {elements : List Int} {length : Nat} {str : List Int} :
    str ∈ allStrings elements length ↔ str.length = length ∧ ∀ p ∈ str, p ∈ elements := by
  induction length generalizing str with
  | zero =>
    unfold allStrings
    rw [List.mem_singleton, List.length_eq_zero_iff]
    exact ⟨fun isNil => ⟨isNil, isNil ▸ fun p inside => absurd inside List.not_mem_nil⟩, And.left⟩
  | succ length ih =>
    unfold allStrings
    rw [List.mem_flatMap]
    constructor
    · intro ⟨p, isElement, inside⟩
      obtain ⟨rest, isRest, rfl⟩ := List.mem_map.mp inside
      have rest := ih.mp isRest
      exact ⟨by rw [List.length_cons, rest.1], List.forall_mem_cons.mpr ⟨isElement, rest.2⟩⟩
    · intro ⟨isLength, inside⟩
      cases str with
      | nil => cases isLength
      | cons p rest =>
        have inside := List.forall_mem_cons.mp inside
        exact ⟨p, inside.1, List.mem_map.mpr ⟨rest, ih.mpr ⟨Nat.succ.inj isLength, inside.2⟩, rfl⟩⟩

theorem length_allStrings (elements : List Int) (length : Nat) :
    (allStrings elements length).length = elements.length ^ length := by
  induction length with
  | zero => rfl
  | succ length ih =>
    unfold allStrings
    simp only [List.length_flatMap, List.length_map, ih, List.map_const', List.sum_replicate, smul_eq_mul]
    rw [Nat.pow_succ, Nat.mul_comm]

theorem nodup_allStrings {elements : List Int} (distinct : elements.Nodup) (length : Nat) :
    (allStrings elements length).Nodup := by
  induction length with
  | zero => exact List.nodup_singleton []
  | succ length ih =>
    unfold allStrings
    rw [List.nodup_flatMap]
    constructor
    · intro p _
      exact ih.map fun l r same => (List.cons.inj same).2
    · refine distinct.imp fun {p q} different => ?_
      intro str left right
      obtain ⟨l, -, rfl⟩ := List.mem_map.mp left
      obtain ⟨r, -, same⟩ := List.mem_map.mp right
      exact different (List.cons.inj same).1.symm

theorem complete_iff {elements : List Int} {length : Nat} {strings : List (List Int)} (distinct : elements.Nodup)
    (nodup : strings.Nodup) (inside : ∀ str ∈ strings, str ∈ allStrings elements length) :
    (∀ str ∈ allStrings elements length, str ∈ strings) ↔ elements.length ^ length ≤ strings.length := by
  rw [← length_allStrings]
  constructor
  · intro all
    exact (List.subperm_of_subset (nodup_allStrings distinct length) all).length_le
  · intro enough str isString
    have perm := (List.subperm_of_subset nodup inside).perm_of_length_le enough
    exact perm.mem_iff.mpr isString

/-- The positions of the elements of a range. -/
def elementPositions (range : Range) : List Int := (List.range range.length).map range.index

theorem mem_elementPositions {range : Range} {p : Int} : p ∈ elementPositions range ↔ range.Contains p := by
  unfold elementPositions
  rw [List.mem_map]
  constructor
  · intro ⟨offset, inside, isIndex⟩
    have inside := List.mem_range.mp inside
    have ends := range.length_of_some (Nat.ne_of_gt (Nat.zero_lt_of_lt inside))
    obtain ⟨direction, left, right⟩ := range
    cases direction with
    | iirTo | iirDownto =>
      simp only [Range.Contains, Range.index] at ends isIndex ⊢
      omega
  · intro inside
    obtain ⟨offset, less, -, isIndex⟩ := range.posInRange_of_contains inside
    exact ⟨offset, List.mem_range.mpr less, isIndex⟩

theorem nodup_elementPositions (range : Range) : (elementPositions range).Nodup :=
  List.nodup_range.map fun _ _ same => range.index_inj same

theorem length_elementPositions (range : Range) : (elementPositions range).length = range.length := by
  unfold elementPositions
  rw [List.length_map, List.length_range]

/-- The strings that are choices. -/
def choiceStrings (choices : List StringChoice) : List (List Int) :=
  choices.filterMap fun
    | .byExpression expr => expr.value
    | _ => none

/-- A choice for the others, or an array of a length. -/
def ArrayChoice (length : Nat) (c : StringChoice) : Prop :=
  c = .byOthers ∨ ∃ expr str, c = .byExpression expr ∧ expr.value = some str ∧ str.length = length

/-- The choices, of which there is at least one, are arrays of one length over the element type, and others. -/
structure StringsOf (elements : Range) (length : Nat) (choices : List StringChoice) : Prop where
  nonempty : choices ≠ []
  arrays : ∀ c ∈ choices, ArrayChoice length c
  elements : ∀ str ∈ choiceStrings choices, ∀ p ∈ str, elements.Contains p

variable {elements : Range} {length : Nat} {choices : List StringChoice} {s s' : ChoicesState} {expr : ChoiceExpr}
  {str : List Int}

/-- What the loop over strings of one length and others does. -/
structure Walked (length : Nat) (choices : List StringChoice) (s s' : ChoicesState) : Prop where
  noError : s'.hasLengthError = s.hasLengthError
  others : s'.othersChoice = true ↔ s.othersChoice = true ∨ .byOthers ∈ choices
  known : s'.selLength = none ∨ s'.selLength = some length
  selLength : s.selLength = some length ∨ choiceStrings choices ≠ [] → s'.selLength = some length
  messages : ∀ m ∈ s'.messages, m ∈ s.messages ∨ m = .duplicateOthers ∨ m = .othersNotLast

theorem semSimpleChoice_value (s : ChoicesState) (isValue : expr.value = some str) :
    semSimpleChoice s expr = checkLength s str.length := by
  cases expr with
  | stringLiteral8 positions | simpleAggregate positions | aggregate positions =>
    rw [← Option.some.inj isValue]
    rfl
  | _ => cases isValue

theorem checkLength_known (known : s.selLength = none ∨ s.selLength = some length) (isLength : str.length = length) :
    checkLength s str.length = { s with selLength := some length } := by
  unfold checkLength
  rcases known with isNone | isSome
  · rw [isNone, isLength]
  · rw [isSome]
    dsimp only
    rw [if_neg (not_not_intro isLength), ← isSome]

theorem semStringChoices_walked
    (arrays : ∀ c ∈ choices, ArrayChoice length c) (known : s.selLength = none ∨ s.selLength = some length) :
    ∃ s', semStringChoices choices s = .ok s' ∧ Walked length choices s s' := by
  induction choices generalizing s with
  | nil =>
    refine ⟨s, rfl, rfl, ?_, known, ?_, fun m inside => Or.inl inside⟩
    · simp
    · rintro (isLength | strings)
      · exact isLength
      · exact absurd rfl strings
  | cons c rest ih =>
    have others := fun d inside => arrays d (List.mem_cons_of_mem c inside)
    rcases arrays c List.mem_cons_self with rfl | ⟨expr, str, rfl, isValue, isLength⟩
    · -- Only a message about the choice for the others may be added.
      have step : ∃ s₁ : ChoicesState, semStringChoices (.byOthers :: rest) s = semStringChoices rest s₁ ∧
          s₁.hasLengthError = s.hasLengthError ∧ s₁.othersChoice = true ∧ s₁.selLength = s.selLength ∧
          ∀ m ∈ s₁.messages, m ∈ s.messages ∨ m = .duplicateOthers ∨ m = .othersNotLast := by
        refine ⟨_, rfl, ?_⟩
        split
        · refine ⟨rfl, rfl, rfl, fun m inside => ?_⟩
          rcases List.mem_append.mp inside with inside | inside
          · exact Or.inl inside
          · exact Or.inr (Or.inl (List.mem_singleton.mp inside))
        · split
          · exact ⟨rfl, rfl, rfl, fun m inside => Or.inl inside⟩
          · refine ⟨rfl, rfl, rfl, fun m inside => ?_⟩
            rcases List.mem_append.mp inside with inside | inside
            · exact Or.inl inside
            · exact Or.inr (Or.inr (List.mem_singleton.mp inside))
      obtain ⟨s₁, step, noError, isOthers, sameLength, messages⟩ := step
      obtain ⟨s', run, walked⟩ := ih (s := s₁) others (by rw [sameLength]; exact known)
      refine ⟨s', step.trans run, walked.noError.trans noError, ?_, walked.known, ?_, fun m inside => ?_⟩
      · rw [walked.others, isOthers]
        exact iff_of_true (Or.inl rfl) (Or.inr List.mem_cons_self)
      · intro either
        apply walked.selLength
        rw [sameLength]
        exact either
      · rcases walked.messages m inside with before | new
        · exact messages m before
        · exact Or.inr new
    · have step : semStringChoices (.byExpression expr :: rest) s = semStringChoices rest { s with selLength := some length } := by
        rw [← checkLength_known known isLength, ← semSimpleChoice_value s isValue]
        rfl
      obtain ⟨s', run, walked⟩ := ih (s := { s with selLength := some length }) others (Or.inr rfl)
      refine ⟨s', step.trans run, walked.noError, ?_, walked.known, fun _ => walked.selLength (Or.inl rfl), walked.messages⟩
      rw [walked.others]
      simp

theorem StringsOf.mem_allStrings (strings : StringsOf elements length choices) :
    ∀ str ∈ choiceStrings choices, str ∈ allStrings (elementPositions elements) length := by
  intro str inside
  have contains := strings.elements str inside
  obtain ⟨c, member, isString⟩ := List.mem_filterMap.mp inside
  rcases strings.arrays c member with rfl | ⟨expr, str', rfl, isValue, isLength⟩
  · cases isString
  · have same : some str' = some str := isValue.symm.trans isString
    rw [Option.some.inj same] at isLength
    exact SemExpr.mem_allStrings.mpr ⟨isLength, fun p inStr => mem_elementPositions.mpr (contains p inStr)⟩

theorem choiceStrings_expression (rest : List StringChoice) (isValue : expr.value = some str) :
    choiceStrings (.byExpression expr :: rest) = str :: choiceStrings rest := List.filterMap_cons_some isValue

theorem fillChoicesArray_expression (rest : List StringChoice) (isValue : expr.value = some str) :
    fillChoicesArray (.byExpression expr :: rest) = .byExpression expr :: fillChoicesArray rest := by
  apply List.filter_cons_of_pos
  dsimp only
  rw [isValue]
  rfl

theorem fillChoicesArray_value (arrays : ∀ c ∈ choices, ArrayChoice length c) :
    (fillChoicesArray choices).map StringChoice.value = choiceStrings choices := by
  induction choices with
  | nil => rfl
  | cons c rest ih =>
    have tail := ih fun d inside => arrays d (List.mem_cons_of_mem c inside)
    rcases arrays c List.mem_cons_self with rfl | ⟨expr, str, rfl, isValue, -⟩
    · exact tail
    rw [choiceStrings_expression rest isValue, fillChoicesArray_expression rest isValue, List.map_cons, tail]
    unfold StringChoice.value
    dsimp only
    rw [isValue]
    rfl

theorem StringsOf.some_string (strings : StringsOf elements length choices) (noOthers : .byOthers ∉ choices) :
    choiceStrings choices ≠ [] := by
  obtain ⟨c, rest, rfl⟩ := List.exists_cons_of_ne_nil strings.nonempty
  rcases strings.arrays c List.mem_cons_self with rfl | ⟨expr, str, rfl, isValue, -⟩
  · exact absurd List.mem_cons_self noOthers
  · rw [choiceStrings_expression rest isValue]
    exact List.cons_ne_nil _ _

theorem StringsOf.elements_pos (strings : StringsOf elements length choices) (pos : 0 < length)
    (some : choiceStrings choices ≠ []) : 0 < elements.length := by
  obtain ⟨str, rest, isStrings⟩ := List.exists_cons_of_ne_nil some
  have inside := SemExpr.mem_allStrings.mp (strings.mem_allStrings str (isStrings ▸ List.mem_cons_self))
  cases str with
  | nil =>
    have isLength := inside.1
    rw [List.length_nil] at isLength
    omega
  | cons p str =>
    have positive := List.length_pos_of_mem (inside.2 p List.mem_cons_self)
    rw [length_elementPositions] at positive
    exact positive

variable {vhdl08 : Bool} {sel : SelType}

/-- The choices are all known to `Get_Str_Info`, or there are not two to be compared. -/
def Compares (choices : List StringChoice) : Prop :=
  (choiceStrings choices).length < 2 ∨ ∀ positions, .byExpression (.aggregate positions) ∉ choices

section

variable (arrays : ∀ c ∈ choices, ArrayChoice length c)
include arrays

theorem literal_of_mem
    (noAggregate : ∀ positions, .byExpression (.aggregate positions) ∉ choices) :
    ∀ c ∈ fillChoicesArray choices, Literal length c := by
  intro c inside
  obtain ⟨member, isStatic⟩ := List.mem_filter.mp inside
  rcases arrays c member with rfl | ⟨expr, str, rfl, isValue, isLength⟩
  · cases isStatic
  cases expr with
  | stringLiteral8 positions =>
    obtain rfl := Option.some.inj isValue
    exact ⟨positions, isLength, Or.inl rfl⟩
  | simpleAggregate positions =>
    obtain rfl := Option.some.inj isValue
    exact ⟨positions, isLength, Or.inr rfl⟩
  | aggregate positions => exact absurd member (noAggregate positions)
  | _ => cases isValue

theorem length_fillChoicesArray :
    (fillChoicesArray choices).length = (choiceStrings choices).length := by
  rw [← fillChoicesArray_value arrays, List.length_map]

theorem sorted_choices (compares : Compares choices) :
    ∃ arr duplicate, Sorting.tryHeapSortList choiceLt (fillChoicesArray choices) = .ok arr ∧
      hasDuplicate arr = .ok duplicate ∧ (duplicate = true ↔ ¬ (choiceStrings choices).Nodup) ∧
      arr.length = (choiceStrings choices).length := by
  have values := fillChoicesArray_value arrays
  rcases compares with few | noAggregate
  · have few : (fillChoicesArray choices).length < 2 := by
      rw [length_fillChoicesArray arrays]
      exact few
    rw [← values]
    match isArr : fillChoicesArray choices with
    | [] => exact ⟨[], false, rfl, rfl, by simp, rfl⟩
    | [c] => exact ⟨[c], false, rfl, rfl, by simp, rfl⟩
    | c :: d :: rest =>
      rw [isArr, List.length_cons, List.length_cons] at few
      omega
  · have literals := literal_of_mem arrays noAggregate
    have perm := Sorting.heapSortList_perm valueLt (fillChoicesArray choices)
    obtain ⟨duplicate, search, isDuplicate⟩ := hasDuplicate_literals
      (Sorting.heapSortList_sorted valueLt_comparison (fillChoicesArray choices))
      (fun c inside => literals c (perm.mem_iff.mp inside))
    refine ⟨_, duplicate, Sorting.tryHeapSortList_ok (choiceLt_comparable length) literals, search, ?_, ?_⟩
    · rw [isDuplicate, (perm.map StringChoice.value).nodup_iff, values]
    · rw [perm.length_eq, length_fillChoicesArray arrays]

end

theorem unsorted_choices {arr : List StringChoice} (arrays : ∀ c ∈ choices, ArrayChoice length c)
    (run : Sorting.tryHeapSortList choiceLt (fillChoicesArray choices) = .ok arr) : Compares choices := by
  by_cases few : (choiceStrings choices).length < 2
  · exact Or.inl few
  refine Or.inr fun positions member => ?_
  have more : 2 ≤ (fillChoicesArray choices).length := by
    rw [length_fillChoicesArray arrays]
    omega
  have inside : .byExpression (.aggregate positions) ∈ fillChoicesArray choices := List.mem_filter.mpr ⟨member, rfl⟩
  obtain ⟨expr, positions', isExpr, info⟩ := Sorting.tryHeapSortList_good choiceLt_required more run _ inside
  rw [← StringChoice.byExpression.inj isExpr] at info
  cases info

theorem missingChoice_eq (pos : 0 < elements.length) {nbr : Nat} (some : nbr ≠ 0) :
    missingChoice elements.length length nbr = .ok (decide (nbr < elements.length ^ length)) := by
  unfold missingChoice
  rw [if_neg (by omega)]
  exact congrArg Except.ok (decide_eq_decide.mpr (zero_mem_nbrValues pos length nbr (Or.inl some)))

theorem StringsOf.enough (strings : StringsOf elements length choices) (nodup : (choiceStrings choices).Nodup) :
    ¬ (choiceStrings choices).length < elements.length ^ length ↔
      ∀ str : List Int, str.length = length → (∀ p ∈ str, elements.Contains p) → str ∈ choiceStrings choices := by
  have enough := complete_iff (nodup_elementPositions elements) nodup strings.mem_allStrings
  rw [length_elementPositions] at enough
  rw [not_lt, ← enough]
  constructor
  · intro all str isLength contains
    exact all str (SemExpr.mem_allStrings.mpr ⟨isLength, fun p inside => mem_elementPositions.mpr (contains p inside)⟩)
  · intro all str inside
    have inside := SemExpr.mem_allStrings.mp inside
    exact all str inside.1 fun p member => mem_elementPositions.mp (inside.2 p member)

theorem checkStringChoices_eq (strings : StringsOf elements length choices) (pos : 0 < length)
    (compares : Compares choices) (others : s.othersChoice = true ↔ .byOthers ∈ choices)
    (known : choiceStrings choices ≠ [] → s.selLength = some length) :
    checkStringChoices elements.length choices s = .ok (s.messages ++
      (if (choiceStrings choices).Nodup then [] else [.duplicateChoice]) ++
      (if s.othersChoice = false ∧ (choiceStrings choices).length < elements.length ^ length then [.missingChoice] else [])) := by
  obtain ⟨arr, duplicate, sorts, search, isDuplicate, sameLength⟩ := sorted_choices strings.arrays compares
  have after : (if duplicate = true then s.errorMsgSem .duplicateChoice else s) =
      { s with messages := s.messages ++ if (choiceStrings choices).Nodup then [] else [.duplicateChoice] } := by
    by_cases nodup : (choiceStrings choices).Nodup
    · rw [if_pos nodup, if_neg fun isTrue => isDuplicate.mp isTrue nodup, List.append_nil]
    · rw [if_neg nodup, if_pos (isDuplicate.mpr nodup)]
      rfl
  unfold checkStringChoices
  rw [sorts]
  show (hasDuplicate arr >>= _) = _
  rw [search]
  dsimp only [bind, Except.bind]
  rw [after]
  dsimp only
  generalize (if (choiceStrings choices).Nodup then [] else [StringMessage.duplicateChoice]) = duplicates
  by_cases isOthers : s.othersChoice = true
  · rw [if_pos isOthers, if_neg fun both => absurd isOthers (by rw [both.1]; simp), List.append_nil]
    rfl
  have some := strings.some_string fun inside => isOthers (others.mpr inside)
  have nonzero : arr.length ≠ 0 := by
    rw [sameLength]
    exact fun isZero => some (List.eq_nil_of_length_eq_zero isZero)
  rw [if_neg isOthers, known some, Option.getD_some, missingChoice_eq (strings.elements_pos pos some) nonzero, sameLength]
  dsimp only
  by_cases less : (choiceStrings choices).length < elements.length ^ length
  · rw [if_pos (decide_eq_true less), if_pos ⟨Bool.eq_false_iff.mpr isOthers, less⟩]
    rfl
  · rw [if_neg (by simpa using less), if_neg fun both => less both.2, List.append_nil]
    rfl

theorem semStringChoicesRange_eq (array : sel.isOneDimensionalArray = true)
    (static : sel.length = some length ∨ sel.length = none ∧ vhdl08 = true) (pos : 0 < length)
    (arrays : ∀ c ∈ choices, ArrayChoice length c) :
    ∃ s, semStringChoicesRange vhdl08 sel choices = checkStringChoices sel.elements.length choices s ∧
      (s.othersChoice = true ↔ .byOthers ∈ choices) ∧ (choiceStrings choices ≠ [] → s.selLength = some length) ∧
      ∀ m ∈ s.messages, m = .duplicateOthers ∨ m = .othersNotLast := by
  have known : sel.length = none ∨ sel.length = some length := static.elim Or.inr fun both => Or.inl both.1
  obtain ⟨s, loop, walked⟩ := semStringChoices_walked (s := { selLength := sel.length }) arrays known
  have isKnown : ¬ (sel.length = none ∧ ¬ vhdl08 = true) := by
    rintro ⟨isNone, not08⟩
    rcases static with isSome | ⟨-, is08⟩
    · rw [isNone] at isSome
      cases isSome
    · exact not08 is08
  have notNull : s.selLength ≠ some 0 := by
    intro isNull
    rcases walked.known with isNone | isSome
    · rw [isNull] at isNone
      cases isNone
    · rw [isNull] at isSome
      have isZero := Option.some.inj isSome
      omega
  refine ⟨s, ?_, ?_, fun some => walked.selLength (Or.inr some), fun m inside => ?_⟩
  · unfold semStringChoicesRange
    rw [if_neg (not_not_intro array), if_neg isKnown, loop]
    show (if s.selLength = some 0 ∨ s.hasLengthError = true then _ else _) = _
    rw [if_neg (by rw [walked.noError]; simpa using notNull)]
  · rw [walked.others]
    simp
  · exact (walked.messages m inside).resolve_left List.not_mem_nil

end Ghdl.SemExpr
