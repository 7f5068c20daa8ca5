import Ghdl.Lists.Shifts

/-!
# Static evaluation of bit and boolean arrays

An array value is a string literal, an aggregate, or a simple aggregate, which names a list of elements. Each operator
expects some of these, and returns one of them. The lists are allocated, and destroyed by the operators that convert an
operand: an access to a list that is destroyed is a failure here.
-/

namespace Ghdl.Evaluation

/-- The element types. -/
inductive ElementType
  | bit
  | boolean
deriving DecidableEq, Repr

/-- An enumeration literal: its type and `Enum_Pos`. -/
structure Literal where
  type : ElementType
  enumPos : Nat
deriving DecidableEq, Repr

/-- The exceptions, and the access to a list that is destroyed. -/
inductive Failure
  | internalError
  | assertion
  | constraintError
  | destroyedFlist
deriving DecidableEq, Repr

inductive Direction
  | iirTo
  | iirDownto
deriving DecidableEq, Repr

/-- A range of positions. -/
structure Range where
  direction : Direction
  left : Int
  right : Int
deriving DecidableEq, Repr

/-- `Eval_Discrete_Range_Length`. -/
def Range.length (range : Range) : Nat :=
  match range.direction with
  | .iirTo => if range.right < range.left then 0 else (range.right - range.left + 1).toNat
  | .iirDownto => if range.left < range.right then 0 else (range.left - range.right + 1).toNat

/-- `Eval_Pos_In_Range`. An `Iir_Index32` is not negative. -/
def Range.posInRange (range : Range) (pos : Int) : Except Failure Nat :=
  let offset :=
    match range.direction with
    | .iirTo => pos - range.left
    | .iirDownto => range.left - pos
  if offset < 0 then .error .constraintError else .ok offset.toNat

/-- The choices of an array aggregate. -/
inductive Choice
  | byNone
  | byExpression (pos : Int)
  | byRange (range : Range)
  | byOthers
deriving DecidableEq, Repr

variable {α : Type}

/-- `Vect (Pos) := Choice`, where only the expression of the choice is used. -/
def setVect (vect : List (Option α)) (pos : Nat) (expr : α) : Except Failure (List (Option α)) :=
  if pos < vect.length then .ok (vect.set pos (some expr)) else .error .constraintError

/-- `Vect (Cur_Pos) := Choice; Cur_Pos := Cur_Pos + 1`. -/
def setNext (expr : α) (state : List (Option α) × Nat) : Except Failure (List (Option α) × Nat) := do
  let vect ← setVect state.1 state.2 expr
  return (vect, state.2 + 1)

/-- `Rng_Start`: the bound of a range choice that comes first in the range of the choices. -/
def Range.rngStart (choiceRange rng : Range) : Int := if rng.direction = choiceRange.direction then rng.left else rng.right

/-- One choice in `Build_Array_Choices_Vector`, with the vector and `Cur_Pos`. -/
def chooseVect (choiceRange : Range) (state : List (Option α) × Nat) (choice : Choice × α) :
    Except Failure (List (Option α) × Nat) :=
  match choice.1 with
  | .byNone => setNext choice.2 state
  | .byRange rng => do
    let curPos ← choiceRange.posInRange (choiceRange.rngStart rng)
    (List.range rng.length).foldlM (fun state _ => setNext choice.2 state) (state.1, curPos)
  | .byExpression pos => do
    let curPos ← choiceRange.posInRange pos
    let vect ← setVect state.1 curPos choice.2
    return (vect, curPos)
  | .byOthers => .ok (state.1.map fun el => el.or (some choice.2), state.2)

/-- `Build_Array_Choices_Vector`. -/
def buildArrayChoicesVector (choiceRange : Range) (choices : List (Choice × α)) :
    Except Failure (List (Option α)) := do
  let (vect, _) ← choices.foldlM (chooseVect choiceRange) (List.replicate choiceRange.length none, 0)
  return vect

/-- The elements of `Aggregate_To_Simple_Aggregate`. -/
def aggregateElements (range : Range) (choices : List (Choice × Bool)) : Except Failure (List Bool) := do
  let vect ← buildArrayChoicesVector range choices
  vect.mapM fun
    | some expr => .ok expr
    | none => .error .assertion

/-- The index of the element with this offset. -/
def Range.index (range : Range) (offset : Nat) : Int :=
  match range.direction with
  | .iirTo => range.left + offset
  | .iirDownto => range.left - offset

/-- The index is in the range. -/
def Range.Contains (range : Range) (index : Int) : Prop :=
  match range.direction with
  | .iirTo => range.left ≤ index ∧ index ≤ range.right
  | .iirDownto => range.right ≤ index ∧ index ≤ range.left

instance (range : Range) (index : Int) : Decidable (range.Contains index) :=
  match range with
  | ⟨.iirTo, _, _⟩ | ⟨.iirDownto, _, _⟩ => inferInstanceAs (Decidable (_ ∧ _))

/-- The choice is for the element with this offset. A choice without an index is for the element at its own place. -/
def Choice.Covers (choiceRange : Range) (place offset : Nat) : Choice → Prop
  | .byNone => place = offset
  | .byExpression pos => pos = choiceRange.index offset
  | .byRange rng => rng.Contains (choiceRange.index offset)
  | .byOthers => True

instance (choiceRange : Range) (place offset : Nat) (c : Choice) : Decidable (c.Covers choiceRange place offset) :=
  match c with
  | .byNone | .byExpression _ => inferInstanceAs (Decidable (_ = _))
  | .byRange rng => inferInstanceAs (Decidable (rng.Contains _))
  | .byOthers => .isTrue trivial

/-- The choices of an aggregate that is analysed: all positional or all named, inside the index range, a null range only
alone, and each element covered by a single choice or by the last one, for the others. -/
structure LegalChoices (range : Range) (choices : List (Choice × α)) : Prop where
  positional : ∀ c ∈ choices, c.1 = .byNone → ∀ d ∈ choices, d.1 = .byNone ∨ d.1 = .byOthers
  places : ∀ (place : Nat) (expr : α), choices[place]? = some (.byNone, expr) → place < range.length
  expressions : ∀ pos expr, (.byExpression pos, expr) ∈ choices → range.Contains pos
  ranges : ∀ rng expr, (.byRange rng, expr) ∈ choices → rng.length ≠ 0 → range.Contains rng.left ∧ range.Contains rng.right
  null : ∀ rng expr, (.byRange rng, expr) ∈ choices → rng.length = 0 → choices = [(.byRange rng, expr)]
  others : ∀ (place : Nat) (expr : α), choices[place]? = some (.byOthers, expr) → place + 1 = choices.length
  unique : ∀ (place place' : Nat) (c c' : Choice × α) (offset : Nat), choices[place]? = some c → choices[place']? = some c' → c.1 ≠ .byOthers →
    c'.1 ≠ .byOthers → offset < range.length → c.1.Covers range place offset → c'.1.Covers range place' offset →
      place = place'
  total : ∀ offset < range.length, ∃ (place : Nat) (c : Choice × α), choices[place]? = some c ∧ c.1.Covers range place offset

/-- A one-dimensional array aggregate, with literals as elements. -/
structure Aggregate where
  range : Range
  choices : List (Choice × Bool)
  legal : LegalChoices range choices

/-- The lists of elements. One that is destroyed is no more. -/
abbrev Flists := List (Option (List Literal))

/-- What an expression is evaluated to. -/
inductive Value
  | stringLiteral8 (positions : List Nat)
  | aggregate (aggr : Aggregate)
  | simpleAggregate (list : Nat)
  | enumerationLiteral (literal : Literal)
  | integerLiteral (value : Int)
  | overflowLiteral

/-- The evaluation of an expression, which keeps the lists also when it fails. -/
abbrev Eval := ExceptT Failure (StateM Flists)

/-- `Create_Iir_Flist`, with the elements that are set. -/
def createFlist (els : List Literal) : Eval Nat := do
  let lists ← get
  set (lists ++ [some els])
  return lists.length

/-- The elements of a list. -/
def flistElements (list : Nat) : Eval (List Literal) := do
  match (← get)[list]? with
  | some (some els) => return els
  | _ => throw .destroyedFlist

/-- `Destroy_Iir_Flist`. -/
def destroyFlist (list : Nat) : Eval Unit := modify fun lists => lists.set list none

section Operators

variable (type : ElementType)

/-- The literals of a string. -/
def literalsOf (positions : List Nat) : List Literal := positions.map fun pos => ⟨type, pos⟩

/-- `Eval_String_Literal`: the list of the simple aggregate. -/
def evalStringLiteral : Value → Eval Nat
  | .stringLiteral8 positions => createFlist (literalsOf type positions)
  | .aggregate aggr => do
    let els ← (aggregateElements aggr.range aggr.choices : Except Failure (List Bool))
    createFlist (literalsOf type (els.map Bool.toNat))
  | .simpleAggregate list => return list
  | _ => throw .internalError

/-- `Free_Eval_String_Literal`. -/
def freeEvalStringLiteral (list : Nat) : Value → Eval Unit
  | .simpleAggregate _ => return
  | _ => destroyFlist list

/-- The literals `Bit_0` and `Bit_1`. -/
def bit0 : Literal := ⟨.bit, 0⟩

def bit1 : Literal := ⟨.bit, 1⟩

/-- The literal for an element of an operand of `not`. -/
def notElement (el : Literal) : Except Failure Literal :=
  match el.enumPos with
  | 0 => .ok bit1
  | 1 => .ok bit0
  | _ => .error .internalError

/-- `not`, in `Eval_Monadic_Operator`. -/
def evalNot (operand : Value) : Eval Value := do
  let litVal ← evalStringLiteral type operand
  let oList ← flistElements litVal
  let rList ← (oList.mapM notElement : Except Failure (List Literal))
  let rList ← createFlist rList
  freeEvalStringLiteral litVal operand
  return .simpleAggregate rList

/-- The exception `Constraint_Error` gives an overflow literal. -/
def handleConstraintError (x : Eval Value) : Eval Value :=
  tryCatch x fun
    | .constraintError => return .overflowLiteral
    | failure => throw failure

/-- `Eval_Monadic_Operator`, for `not`. -/
def evalMonadicOperator (operand : Value) : Eval Value :=
  match operand with
  | .overflowLiteral => return .overflowLiteral
  | _ => handleConstraintError (evalNot type operand)

/-- `Iir_Predefined_Dyadic_TF_Array_Functions`. -/
inductive TfArrayFunction
  | and
  | or
  | nand
  | nor
  | xor
  | xnor
deriving DecidableEq, Repr

/-- What is appended for two elements. -/
def bitArrayElement (func : TfArrayFunction) (l r : Nat) : Except Failure Nat :=
  let negated : Except Failure Nat :=
    match r with
    | 0 => .ok 1
    | 1 => .ok 0
    | _ => .error .internalError
  match func, l with
  | .and, 0 => .ok 0
  | .and, 1 => .ok r
  | .nand, 0 => .ok 1
  | .nand, 1 => negated
  | .or, 1 => .ok 1
  | .or, 0 => .ok r
  | .nor, 1 => .ok 0
  | .nor, 0 => negated
  | .xor, 1 => negated
  | .xor, 0 => .ok r
  | _, _ => .error .internalError

/-- `Eval_Dyadic_Bit_Array_Operator`. The operands must have a `String8_Id`. -/
def evalDyadicBitArrayOperator (func : TfArrayFunction) (left right : Value) : Eval Value := do
  match left, right with
  | .stringLiteral8 lStr, .stringLiteral8 rStr =>
    if lStr.length ≠ rStr.length then return .overflowLiteral
    else if func = .xnor then throw .internalError
    else
      let els ← ((lStr.zip rStr).mapM fun (l, r) => bitArrayElement func l r : Except Failure (List Nat))
      return .stringLiteral8 els
  | _, _ => throw .assertion

/-- `Iir_Predefined_Shift_Functions`. -/
inductive ShiftFunction
  | sll
  | srl
  | sla
  | sra
  | rol
  | ror
deriving DecidableEq, Repr

/-- The conversion to `Natural`. -/
def toNatural (n : Int) : Except Failure Nat :=
  if 0 ≤ n ∧ n ≤ 2147483647 then .ok n.toNat else .error .constraintError

/-- An element that is not set. -/
def nullElement : Literal := ⟨.bit, 0⟩

/-- The elements of `Eval_Shift_Operator`, by `cnt` places to the left or to the right. -/
def shiftedElements (arrList : List Literal) (cnt : Nat) (dirLeft : Bool) (func : ShiftFunction) : List Literal :=
  let len := arrList.length
  let element := fun n => arrList.getD n nullElement
  let resList := List.replicate len nullElement
  let shifted := fun e =>
    if dirLeft then
      let moved := if cnt < len then Shifts.setNth resList 0 (len - cnt) fun k => element (cnt + k) else resList
      let cnt := if cnt < len then cnt else len
      Shifts.setNth moved (len - cnt) cnt fun _ => e
    else
      let cnt := if cnt > len then len else cnt
      Shifts.setNth (Shifts.setNth resList 0 cnt fun _ => e) cnt (len - cnt) fun k => element k
  match func with
  | .sll | .srl => shifted ⟨type, 0⟩
  | .sla | .sra => shifted (if dirLeft then element (len - 1) else element 0)
  | .rol | .ror =>
    let cnt := cnt % len
    let cnt := if dirLeft then cnt else (len - cnt) % len
    ((List.range len).foldl
      (fun (resList, cnt) i => (resList.set i (element cnt), if cnt + 1 = len then 0 else cnt + 1)) (resList, cnt)).1

/-- `Eval_Shift_Operator`. -/
def evalShiftOperator (list : Nat) (count : Int) (func : ShiftFunction) : Eval Value := do
  let arrList ← flistElements list
  if count = 0 ∨ arrList.length = 0 then return .simpleAggregate list
  else
    let dirLeft :=
      match func with
      | .sll | .sla | .rol => true
      | .srl | .sra | .ror => false
    let cnt ← (toNatural (if count < 0 then -count else count) : Except Failure Nat)
    let dirLeft := if count < 0 then !dirLeft else dirLeft
    let resList ← createFlist (shiftedElements type arrList cnt dirLeft func)
    return .simpleAggregate resList

/-- `Iir_Predefined_Concat_Functions`. -/
inductive ConcatFunction
  | arrayArray
  | arrayElement
  | elementArray
  | elementElement
deriving DecidableEq, Repr

/-- An operand of a concatenation that is an element. -/
def elementOf : Value → Eval Literal
  | .enumerationLiteral literal => return literal
  | _ => throw .assertion

/-- `Eval_Concatenation`. -/
def evalConcatenation (func : ConcatFunction) (left right : Value) : Eval Value := do
  let leftAggr ←
    match func with
    | .elementArray | .elementElement => pure none
    | .arrayElement | .arrayArray => some <$> evalStringLiteral type left
  let leftList ←
    match leftAggr with
    | none => do
      let el ← elementOf left
      pure [el]
    | some list => flistElements list
  let rightAggr ←
    match func with
    | .arrayElement | .elementElement => pure none
    | .elementArray | .arrayArray => some <$> evalStringLiteral type right
  let rightList ←
    match rightAggr with
    | none => do
      let el ← elementOf right
      pure [el]
    | some list => flistElements list
  let resList ← createFlist (leftList ++ rightList)
  leftAggr.forM fun list => freeEvalStringLiteral list left
  rightAggr.forM fun list => freeEvalStringLiteral list right
  return .simpleAggregate resList

/-- The functions of `Eval_Dyadic_Operator` on arrays. -/
inductive DyadicFunction
  | concat (func : ConcatFunction)
  | tfArray (func : TfArrayFunction)
  | shift (func : ShiftFunction)
deriving DecidableEq, Repr

/-- `Get_Value`, of an integer literal. -/
def getValue : Value → Eval Int
  | .integerLiteral value => return value
  | _ => throw .assertion

/-- `Eval_Dyadic_Operator`. -/
def evalDyadicOperator (func : DyadicFunction) (left right : Value) : Eval Value :=
  match left, right with
  | .overflowLiteral, _ | _, .overflowLiteral => return .overflowLiteral
  | _, _ =>
    handleConstraintError <|
      match func with
      | .concat func => evalConcatenation type func left right
      | .tfArray func => evalDyadicBitArrayOperator func left right
      | .shift func => do
        let leftAggr ← evalStringLiteral type left
        let res ← evalShiftOperator type leftAggr (← getValue right) func
        freeEvalStringLiteral leftAggr left
        return res

end Operators

/-- The static expressions on one-dimensional arrays of an element type. -/
inductive Expr
  | stringLiteral8 (bits : List Bool)
  | aggregate (aggr : Aggregate)
  | not (operand : Expr)
  | tfArray (func : TfArrayFunction) (left right : Expr)
  | shift (func : ShiftFunction) (left : Expr) (count : Int)
  | arrayArray (left right : Expr)
  | arrayElement (left : Expr) (right : Bool)
  | elementArray (left : Bool) (right : Expr)
  | elementElement (left right : Bool)

/-- The enumeration literal of an element. -/
def Literal.ofBool (type : ElementType) (b : Bool) : Literal := ⟨type, b.toNat⟩

/-- `Eval_Static_Expr`. -/
def evalStaticExpr (type : ElementType) : Expr → Eval Value
  | .stringLiteral8 bits => return .stringLiteral8 (bits.map Bool.toNat)
  | .aggregate aggr => return .aggregate aggr
  | .not operand => do
    let operand ← evalStaticExpr type operand
    evalMonadicOperator type operand
  | .tfArray func left right => do
    let leftVal ← evalStaticExpr type left
    let rightVal ← evalStaticExpr type right
    evalDyadicOperator type (.tfArray func) leftVal rightVal
  | .shift func left count => do
    let leftVal ← evalStaticExpr type left
    evalDyadicOperator type (.shift func) leftVal (.integerLiteral count)
  | .arrayArray left right => do
    let leftVal ← evalStaticExpr type left
    let rightVal ← evalStaticExpr type right
    evalDyadicOperator type (.concat .arrayArray) leftVal rightVal
  | .arrayElement left right => do
    let leftVal ← evalStaticExpr type left
    evalDyadicOperator type (.concat .arrayElement) leftVal (.enumerationLiteral (.ofBool type right))
  | .elementArray left right => do
    let rightVal ← evalStaticExpr type right
    evalDyadicOperator type (.concat .elementArray) (.enumerationLiteral (.ofBool type left)) rightVal
  | .elementElement left right =>
    evalDyadicOperator type (.concat .elementElement) (.enumerationLiteral (.ofBool type left))
      (.enumerationLiteral (.ofBool type right))

end Ghdl.Evaluation
