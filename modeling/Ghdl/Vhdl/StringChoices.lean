import Ghdl.Sorting.PartialHeapSort
import Ghdl.Vhdl.Aggregates

/-!
# Choices of strings

The choices of a case statement over a string are sorted, so that a duplicate one is the neighbour of another one.
Missing choices are found by the number of choices, which is divided once for each character: without duplicates, there
are enough choices exactly when each string is one. But the comparison expects string literals and simple aggregates,
and an aggregate, which is locally static since VHDL 2008, stays an aggregate when it is evaluated.
-/

namespace Ghdl.SemExpr

open Evaluation Fallible

/-- `Compare_Type`. -/
inductive CompareType
  | lt
  | eq
  | gt
deriving DecidableEq

/-- The expression of a choice, after `Sem_Expression` and `Eval_Expr`, with the positions of its elements. -/
inductive ChoiceExpr
  /-- `Sem_Expression` returns `Null_Iir`. -/
  | null
  | notStatic
  | overflow
  | stringLiteral8 (positions : List Int)
  | simpleAggregate (positions : List Int)
  | aggregate (positions : List Int)

/-- The value of an array. -/
def ChoiceExpr.value : ChoiceExpr → Option (List Int)
  | .stringLiteral8 positions | .simpleAggregate positions | .aggregate positions => some positions
  | _ => none

/-- `Get_Str_Info`, with the positions that `Get_Pos` gives. -/
def getStrInfo : ChoiceExpr → Except Failure (List Int)
  | .stringLiteral8 positions | .simpleAggregate positions => .ok positions
  | _ => .error .internalError

/-- The loop of `Compare_String_Literals`. The strings have the same length. -/
def comparePositions : List Int → List Int → CompareType
  | [], [] => .eq
  | [], _ :: _ => .lt
  | _ :: _, [] => .gt
  | l :: ls, r :: rs => if l ≠ r then if l < r then .lt else .gt else comparePositions ls rs

/-- `Compare_String_Literals`. -/
def compareStringLiterals (l r : ChoiceExpr) : Except Failure CompareType := do
  let lPos ← getStrInfo l
  let rPos ← getStrInfo r
  if lPos.length ≠ rPos.length then .error .internalError else return comparePositions lPos rPos

/-- The choices of a case statement. -/
inductive StringChoice
  | byNone
  | byExpression (expr : ChoiceExpr)
  | byRange (static : Bool)
  | byOthers

/-- The messages of `Sem_String_Choices_Range`. -/
inductive StringMessage
  /-- "expression must be discrete or one-dimension array subtype" -/
  | notArray
  /-- "array type must be locally static" -/
  | arrayNotStatic
  /-- "choice must be locally static expression" -/
  | notStatic
  /-- "bound error during evaluation of choice expression" -/
  | boundError
  /-- "incorrect length for the choice value" -/
  | incorrectLength
  /-- "range choice are not allowed for non-discrete type" -/
  | rangeChoice
  /-- "duplicate others choice" -/
  | duplicateOthers
  /-- "choice others must be the last alternative" -/
  | othersNotLast
  /-- "duplicate choice with choice at %l" -/
  | duplicateChoice
  /-- "missing choice(s)" -/
  | missingChoice
deriving DecidableEq

/-- The type of the expression of the case statement. -/
structure SelType where
  isOneDimensionalArray : Bool
  /-- The length, when the type is locally static. -/
  length : Option Nat
  /-- The range of the element type. -/
  elements : Range

/-- What the loop over the choices changes. `Sel_Length` is -1 as long as it is not known. -/
structure ChoicesState where
  selLength : Option Nat
  hasLengthError : Bool := false
  othersChoice : Bool := false
  messages : List StringMessage := []

/-- `Error_Msg_Sem`. -/
def ChoicesState.errorMsgSem (s : ChoicesState) (message : StringMessage) : ChoicesState :=
  { s with messages := s.messages ++ [message] }

/-- The test of the length in `Sem_Simple_Choice`. -/
def checkLength (s : ChoicesState) (choiceLen : Nat) : ChoicesState :=
  match s.selLength with
  | none => { s with selLength := some choiceLen }
  | some length =>
    if choiceLen ≠ length then { s.errorMsgSem .incorrectLength with hasLengthError := true } else s

/-- `Sem_Simple_Choice`. -/
def semSimpleChoice (s : ChoicesState) : ChoiceExpr → ChoicesState
  | .null => { s with hasLengthError := true }
  | .notStatic => { s.errorMsgSem .notStatic with hasLengthError := true }
  | .overflow => { s.errorMsgSem .boundError with hasLengthError := true }
  | .stringLiteral8 positions | .simpleAggregate positions | .aggregate positions => checkLength s positions.length

/-- The loop over the choices. -/
def semStringChoices : List StringChoice → ChoicesState → Except Failure ChoicesState
  | [], s => .ok s
  | .byNone :: _, _ => .error .internalError
  | .byRange _ :: rest, s => semStringChoices rest (s.errorMsgSem .rangeChoice)
  | .byExpression expr :: rest, s => semStringChoices rest (semSimpleChoice s expr)
  | .byOthers :: rest, s =>
    let s :=
      if s.othersChoice then s.errorMsgSem .duplicateOthers
      else if rest.isEmpty then s
      else s.errorMsgSem .othersNotLast
    semStringChoices rest { s with othersChoice := true }

/-- `Fill_Choices_Array`: the locally static choices, of which there are `Nbr_Choices`. -/
def fillChoicesArray (choices : List StringChoice) : List StringChoice :=
  choices.filter fun
    | .byExpression expr => expr.value.isSome
    | .byRange static => static
    | _ => false

/-- `Get_Choice_Expression`. -/
def getChoiceExpression : StringChoice → Except Failure ChoiceExpr
  | .byExpression expr => .ok expr
  | _ => .error .assertion

/-- A comparison in `Sort_String_Choices` or in the search for duplicates. -/
def compareChoices (op1 op2 : StringChoice) : Except Failure CompareType := do
  compareStringLiterals (← getChoiceExpression op1) (← getChoiceExpression op2)

/-- `Lt` of `Sort_String_Choices`. -/
def choiceLt (op1 op2 : StringChoice) : Except Failure Bool := do
  return (← compareChoices op1 op2) = .lt

/-- Two neighbours are equal. -/
def hasDuplicate : List StringChoice → Except Failure Bool
  | op1 :: op2 :: rest => do
    let result ← compareChoices op1 op2
    if result = .eq then return true else hasDuplicate (op2 :: rest)
  | _ => .ok false

/-- The values of `Nbr` in the test for missing choices, up to the end of the loop. -/
def nbrValues (selElLength : Nat) : Nat → Nat → List Nat
  | 0, _ => []
  | rounds + 1, nbr =>
    if nbr / selElLength = 0 then [0] else nbr / selElLength :: nbrValues selElLength rounds (nbr / selElLength)

/-- The test for missing choices. -/
def missingChoice (selElLength selLength nbr : Nat) : Except Failure Bool :=
  -- Division by zero.
  if selElLength = 0 ∧ selLength ≠ 0 then .error .constraintError else .ok (decide (0 ∈ nbrValues selElLength selLength nbr))

/-- What `Sem_String_Choices_Range` does when all lengths are right. -/
def checkStringChoices (selElLength : Nat) (choices : List StringChoice) (s : ChoicesState) :
    Except Failure (List StringMessage) := do
  let arr ← Sorting.tryHeapSortList choiceLt (fillChoicesArray choices)
  let duplicate ← hasDuplicate arr
  let s := if duplicate then s.errorMsgSem .duplicateChoice else s
  if s.othersChoice then return s.messages
  else
    let missing ← missingChoice selElLength (s.selLength.getD 0) arr.length
    return (if missing then s.errorMsgSem .missingChoice else s).messages

/-- `Sem_String_Choices_Range`. -/
def semStringChoicesRange (vhdl08 : Bool) (sel : SelType) (choices : List StringChoice) :
    Except Failure (List StringMessage) :=
  if ¬ sel.isOneDimensionalArray then .ok [.notArray]
  else if sel.length = none ∧ ¬ vhdl08 then .ok [.arrayNotStatic]
  else do
    let s ← semStringChoices choices { selLength := sel.length }
    -- Null choices.
    if s.selLength = some 0 ∨ s.hasLengthError then return s.messages
    else checkStringChoices sel.elements.length choices s

theorem comparePositions_cons (l r : Int) (ls rs : List Int) : comparePositions (l :: ls) (r :: rs) =
    if l ≠ r then if l < r then .lt else .gt else comparePositions ls rs := rfl

theorem comparePositions_lt_iff (l r : List Int) : comparePositions l r = .lt ↔ l < r := by
  induction l generalizing r with
  | nil =>
    cases r with
    | nil | cons r rs => simp [comparePositions]
  | cons l ls ih =>
    cases r with
    | nil => simp [comparePositions]
    | cons r rs =>
      rw [List.cons_lt_cons_iff, ← ih, comparePositions_cons]
      by_cases same : l = r
      · simp [same]
      · by_cases less : l < r
        all_goals simp [same, less]

theorem comparePositions_eq_iff (l r : List Int) : comparePositions l r = .eq ↔ l = r := by
  induction l generalizing r with
  | nil =>
    cases r with
    | nil | cons r rs => simp [comparePositions]
  | cons l ls ih =>
    cases r with
    | nil => simp [comparePositions]
    | cons r rs =>
      rw [List.cons.injEq, ← ih, comparePositions_cons]
      by_cases same : l = r
      · simp [same]
      · by_cases less : l < r
        all_goals simp [same, less]

/-- The string of a choice. -/
def StringChoice.value : StringChoice → List Int
  | .byExpression expr => expr.value.getD []
  | _ => []

/-- A choice whose expression `Get_Str_Info` knows, of a length. -/
def Literal (length : Nat) (c : StringChoice) : Prop :=
  ∃ positions : List Int, positions.length = length ∧
    (c = .byExpression (.stringLiteral8 positions) ∨ c = .byExpression (.simpleAggregate positions))

/-- The order of the strings. -/
def valueLt (c d : StringChoice) : Bool := c.value < d.value

theorem valueLt_comparison : Sorting.Comparison valueLt where
  asymm less := decide_eq_false (lt_asymm (of_decide_eq_true less))
  cotrans {c d} less e := by
    have less : c.value < d.value := of_decide_eq_true less
    rcases lt_or_ge c.value e.value with before | after
    · exact Or.inl (decide_eq_true before)
    · exact Or.inr (decide_eq_true (lt_of_le_of_lt after less))

theorem compareChoices_literal {length : Nat} {c d : StringChoice} (left : Literal length c) (right : Literal length d) :
    compareChoices c d = .ok (comparePositions c.value d.value) := by
  obtain ⟨l, isLength, isLeft⟩ := left
  obtain ⟨r, isLength', isRight⟩ := right
  have same : ¬ l.length ≠ r.length := fun different => different (isLength.trans isLength'.symm)
  have compared : ∀ {el er : ChoiceExpr}, getStrInfo el = .ok l → getStrInfo er = .ok r → el.value = some l → er.value = some r →
      compareChoices (.byExpression el) (.byExpression er) =
        .ok (comparePositions (StringChoice.byExpression el).value (StringChoice.byExpression er).value) := by
    intro el er infoL infoR valueL valueR
    unfold compareChoices compareStringLiterals getChoiceExpression StringChoice.value
    dsimp only
    rw [valueL, valueR]
    show (getStrInfo el >>= _) = _
    rw [infoL]
    show (getStrInfo er >>= _) = _
    rw [infoR]
    show (if l.length ≠ r.length then _ else _) = _
    rw [if_neg same]
    rfl
  rcases isLeft with rfl | rfl
  all_goals
    rcases isRight with rfl | rfl
    all_goals exact compared rfl rfl rfl rfl

theorem choiceLt_comparable (length : Nat) : Sorting.Comparable choiceLt (Literal length) valueLt := by
  intro c d left right
  unfold choiceLt
  rw [compareChoices_literal left right]
  exact congrArg Except.ok (decide_eq_decide.mpr (comparePositions_lt_iff _ _))

/-- A choice whose expression `Get_Str_Info` knows. -/
def Readable (c : StringChoice) : Prop := ∃ expr positions, c = .byExpression expr ∧ getStrInfo expr = .ok positions

theorem getChoiceExpression_eq {c : StringChoice} {expr : ChoiceExpr} (isExpr : getChoiceExpression c = .ok expr) :
    c = .byExpression expr := by
  cases c with
  | byExpression e => exact congrArg _ (Except.ok.inj isExpr)
  | _ => cases isExpr

theorem choiceLt_required : Sorting.Required choiceLt Readable := by
  intro c d v result
  obtain ⟨compared, result, -⟩ := bind_ok.mp result
  obtain ⟨l, isLeft, result⟩ := bind_ok.mp result
  obtain ⟨r, isRight, result⟩ := bind_ok.mp result
  obtain ⟨lPos, infoL, result⟩ := bind_ok.mp result
  obtain ⟨rPos, infoR, -⟩ := bind_ok.mp result
  exact ⟨⟨l, lPos, getChoiceExpression_eq isLeft, infoL⟩, ⟨r, rPos, getChoiceExpression_eq isRight, infoR⟩⟩

theorem hasDuplicate_literals {length : Nat} {arr : List StringChoice} (sorted : Sorting.Sorted valueLt arr)
    (literals : ∀ c ∈ arr, Literal length c) :
    ∃ duplicate, hasDuplicate arr = .ok duplicate ∧ (duplicate = true ↔ ¬ (arr.map StringChoice.value).Nodup) := by
  induction arr with
  | nil => exact ⟨false, rfl, by simp⟩
  | cons c rest ih =>
    cases rest with
    | nil => exact ⟨false, rfl, by simp⟩
    | cons d rest =>
      obtain ⟨duplicate, tail, isDuplicate⟩ := ih (List.Pairwise.of_cons sorted)
        (fun e inside => literals e (List.mem_cons_of_mem c inside))
      have compared := compareChoices_literal (literals c List.mem_cons_self)
        (literals d (List.mem_cons_of_mem c List.mem_cons_self))
      unfold hasDuplicate
      rw [compared, tail]
      by_cases same : c.value = d.value
      · refine ⟨true, if_pos ((comparePositions_eq_iff _ _).mpr same), iff_of_true rfl fun distinct => ?_⟩
        rw [List.map_cons, List.map_cons, same] at distinct
        exact (List.nodup_cons.mp distinct).1 List.mem_cons_self
      refine ⟨duplicate, if_neg fun isEq => same ((comparePositions_eq_iff _ _).mp isEq), ?_⟩
      have shape : (c :: d :: rest).map StringChoice.value = c.value :: (d :: rest).map StringChoice.value := rfl
      rw [isDuplicate, shape, List.nodup_cons]
      constructor
      · intro repeated distinct
        exact repeated distinct.2
      intro notNodup distinct
      apply notNodup
      refine ⟨fun inside => ?_, distinct⟩
      -- What lies between equal strings is equal to them.
      obtain ⟨e, member, isSame⟩ := List.mem_map.mp inside
      have first := of_decide_eq_false ((List.pairwise_cons.mp sorted).1 d List.mem_cons_self)
      rcases List.mem_cons.mp member with rfl | member
      · exact same isSame.symm
      · have second := of_decide_eq_false ((List.pairwise_cons.mp (List.Pairwise.of_cons sorted)).1 e member)
        rw [isSame] at second
        exact same (le_antisymm (not_lt.mp first) (not_lt.mp second))

end Ghdl.SemExpr
