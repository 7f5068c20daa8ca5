import Ghdl.Vhdl.ArrayValues

/-!
# Static evaluation of array expressions

The binary logical operators only work on string literals, `xnor` never does, and `not` always returns literals of type
`BIT`. A shift that moves nothing returns the list of the converted operand, which is destroyed. The evaluation is right
wherever none of these matters.
-/

namespace Ghdl.Evaluation

open Fallible

variable {type : ElementType} {e : Expr} {lists lists' : Flists} {v : Value}

theorem mapM_notElement (e : Expr) : (e.literals type).mapM notElement = .ok ((Expr.not e).literals type) := by
  unfold Expr.literals
  rw [List.mapM_map]
  have each : ∀ el ∈ e.marked, (notElement ∘ fun el : Bool × Bool => (⟨if el.2 then .bit else type, el.1.toNat⟩ : Literal)) el =
      .ok ⟨.bit, (!el.1).toNat⟩ := by
    intro el _
    obtain ⟨b, mark⟩ := el
    cases b <;> rfl
  rw [mapM_ok each, Expr.marked, List.map_map]
  rfl

theorem evalMonadicOperator_succeeds (describes : Describes type e lists v) (live : e.representation ≠ .destroyed) :
    Succeeds type (.not e) (evalMonadicOperator type v) lists := by
  by_cases overflow : e.representation = .overflow
  · rw [describes.of_overflow overflow]
    refine Succeeds.overflow lists rfl (Keeps.refl lists) ?_
    rw [Expr.representation, overflow]
    rfl
  have handled : evalMonadicOperator type v = handleConstraintError (evalNot type v) := by
    have other := describes.ne_overflow overflow
    cases v with
    | overflowLiteral => exact absurd rfl other
    | _ => rfl
  rw [handled]
  rcases e.representation.converted_cases with overflows | usable
  · have run : evalNot type v lists = (.error .constraintError, lists) :=
      run_bind_error (convert_constraintError describes overflow overflows)
    refine Succeeds.overflow lists (by rw [run_handle, run]) (Keeps.refl lists) overflows
  obtain ⟨list, lists₁, converted⟩ := convert describes usable live
  obtain ⟨lists₃, freed, keeps₃, others⟩ := converted.frees lists _ (Nat.le_refl _)
    (converted.keeps.trans (keeps_append lists₁ [some ((Expr.not e).literals type)]))
  have run : evalNot type v lists = (.ok (.simpleAggregate lists₁.length), lists₃) := by
    unfold evalNot
    rw [run_bind converted.run, run_bind (run_flistElements converted.elements),
      run_bind (run_lift _ |>.trans (by rw [mapM_notElement])), run_bind (run_createFlist _), run_bind freed]
    rfl
  have inside := converted.inside
  refine Succeeds.list lists₁.length lists₃ (by rw [run_handle, run]) keeps₃ usable ?_
  rw [others lists₁.length (by omega)]
  simp

theorem evalMonadicOperator_fails (describes : Describes type e lists v) (destroyed : e.representation = .destroyed) :
    Fails (evalMonadicOperator type v) lists := by
  obtain ⟨list, rfl, converted, failed⟩ := convert_destroyed describes destroyed
  have run : evalNot type (.simpleAggregate list) lists = (.error .destroyedFlist, lists) := by
    unfold evalNot
    rw [run_bind converted, run_bind_error failed]
  exact ⟨.destroyedFlist, lists, by
    show handleConstraintError _ lists = _
    rw [run_handle, run]⟩

section Dyadic

variable {left right : Expr} {l r : Value}

theorem evalDyadicOperator_overflow (func : DyadicFunction) (overflow : l = .overflowLiteral ∨ r = .overflowLiteral) :
    evalDyadicOperator type func l r lists = (.ok .overflowLiteral, lists) := by
  rcases overflow with rfl | rfl
  · rfl
  · cases l <;> rfl

variable (type) in
theorem evalDyadicOperator_handled (func : DyadicFunction) (notLeft : l ≠ .overflowLiteral) (notRight : r ≠ .overflowLiteral) :
    evalDyadicOperator type func l r = handleConstraintError
      (match func with
      | .concat func => evalConcatenation type func l r
      | .tfArray func => evalDyadicBitArrayOperator func l r
      | .shift func => do
        let leftAggr ← evalStringLiteral type l
        let res ← evalShiftOperator type leftAggr (← getValue r) func
        freeEvalStringLiteral leftAggr l
        return res) := by
  cases l with
  | overflowLiteral => exact absurd rfl notLeft
  | _ =>
    cases r with
    | overflowLiteral => exact absurd rfl notRight
    | _ => rfl

theorem Describes.of_string (describes : Describes type e lists v) (string : e.representation = .string) :
    v = .stringLiteral8 (e.marked.map fun el => el.1.toNat) ∧ ∀ el ∈ e.marked, el.2 = false := by
  unfold Describes at describes
  rw [string] at describes
  exact describes

theorem Describes.string {positions : List Nat} (describes : Describes type e lists v)
    (isString : v = .stringLiteral8 positions) : e.representation = .string := by
  subst isString
  unfold Describes at describes
  split at describes
  · assumption
  · obtain ⟨aggr, -, isAggregate⟩ := describes
    exact Value.noConfusion isAggregate
  · obtain ⟨list, isList, -⟩ := describes
    exact Value.noConfusion isList
  · obtain ⟨list, isList, -⟩ := describes
    exact Value.noConfusion isList
  · exact Value.noConfusion describes

theorem Expr.matched_of_representation (notOverflow : e.representation ≠ .overflow) : ¬ e.Mismatched :=
  fun mismatched => notOverflow (representation_of_mismatched mismatched)

theorem mapM_bitArrayElement {func : TfArrayFunction} (known : func ≠ .xnor) (left right : Expr) :
    ((left.marked.map fun el => el.1.toNat).zip (right.marked.map fun el => el.1.toNat)).mapM
        (fun el => bitArrayElement func el.1 el.2) =
      .ok ((Expr.tfArray func left right).marked.map fun el => el.1.toNat) := by
  rw [List.zip_map, List.mapM_map]
  have each : ∀ el ∈ left.marked.zip right.marked,
      ((fun el : Nat × Nat => bitArrayElement func el.1 el.2) ∘
        Prod.map (fun el : Bool × Bool => el.1.toNat) fun el : Bool × Bool => el.1.toNat) el =
        .ok (func.apply el.1.1 el.2.1).toNat := fun el _ => bitArrayElement_eq known el.1.1 el.2.1
  rw [mapM_ok each, Expr.marked, ← List.map_uncurry_zip_eq_zipWith, List.map_map]
  rfl

theorem evalTfArray_succeeds {func : TfArrayFunction} (describesLeft : Describes type left lists l)
    (describesRight : Describes type right lists r)
    (suits : left.representation = .overflow ∨ right.representation = .overflow ∨
      left.representation = .string ∧ right.representation = .string ∧ (func = .xnor → left.size ≠ right.size)) :
    Succeeds type (.tfArray func left right) (evalDyadicOperator type (.tfArray func) l r) lists := by
  by_cases overflow : left.representation = .overflow ∨ right.representation = .overflow
  · have values : l = .overflowLiteral ∨ r = .overflowLiteral :=
      overflow.imp describesLeft.of_overflow describesRight.of_overflow
    refine Succeeds.overflow lists (evalDyadicOperator_overflow _ values) (Keeps.refl lists) ?_
    rw [Expr.representation]
    exact if_pos (overflow.imp id Or.inl)
  rw [not_or] at overflow
  obtain ⟨notLeft, notRight⟩ := overflow
  rcases suits with isOverflow | isOverflow | ⟨stringLeft, stringRight, known⟩
  · exact absurd isOverflow notLeft
  · exact absurd isOverflow notRight
  · have leftLength := Expr.length_marked (Expr.matched_of_representation notLeft)
    have rightLength := Expr.length_marked (Expr.matched_of_representation notRight)
    have handled := evalDyadicOperator_handled type (.tfArray func) (describesLeft.ne_overflow notLeft)
      (describesRight.ne_overflow notRight)
    rw [handled, (describesLeft.of_string stringLeft).1, (describesRight.of_string stringRight).1]
    dsimp only
    unfold evalDyadicBitArrayOperator
    by_cases same : left.size = right.size
    · have notXnor : func ≠ .xnor := fun isXnor => known isXnor same
      dsimp only
      rw [if_neg (by simp [leftLength, rightLength, same]), if_neg notXnor]
      refine ⟨.stringLiteral8 ((Expr.tfArray func left right).marked.map fun el => el.1.toNat), lists, ?_, Keeps.refl lists, ?_⟩
      · rw [run_handle, run_bind (run_lift _ |>.trans (by rw [mapM_bitArrayElement notXnor]))]
        rfl
      unfold Describes
      rw [Expr.representation, if_neg (by simp [notLeft, notRight, same])]
      refine ⟨rfl, fun el inside => ?_⟩
      rw [Expr.marked, ← List.map_uncurry_zip_eq_zipWith] at inside
      obtain ⟨pair, -, rfl⟩ := List.mem_map.mp inside
      rfl
    · dsimp only
      rw [if_pos (by simp [leftLength, rightLength, same])]
      refine Succeeds.overflow lists ?_ (Keeps.refl lists) ?_
      · rw [run_handle]
        rfl
      · rw [Expr.representation]
        exact if_pos (Or.inr (Or.inr same))

theorem evalTfArray_fails {func : TfArrayFunction} (describesLeft : Describes type left lists l)
    (describesRight : Describes type right lists r)
    (unsuited : ¬ (left.representation = .overflow ∨ right.representation = .overflow ∨
      left.representation = .string ∧ right.representation = .string ∧ (func = .xnor → left.size ≠ right.size))) :
    Fails (evalDyadicOperator type (.tfArray func) l r) lists := by
  rw [not_or, not_or] at unsuited
  obtain ⟨notLeft, notRight, notStrings⟩ := unsuited
  have handled := evalDyadicOperator_handled type (.tfArray func) (describesLeft.ne_overflow notLeft)
    (describesRight.ne_overflow notRight)
  rw [handled]
  dsimp only
  by_cases strings : left.representation = .string ∧ right.representation = .string
  · obtain ⟨stringLeft, stringRight⟩ := strings
    have isXnor : func = .xnor ∧ left.size = right.size := by
      apply Classical.byContradiction
      intro other
      exact notStrings ⟨stringLeft, stringRight, fun isXnor same => other ⟨isXnor, same⟩⟩
    have leftLength := Expr.length_marked (Expr.matched_of_representation notLeft)
    have rightLength := Expr.length_marked (Expr.matched_of_representation notRight)
    rw [(describesLeft.of_string stringLeft).1, (describesRight.of_string stringRight).1]
    unfold evalDyadicBitArrayOperator
    dsimp only
    rw [if_neg (by simp [leftLength, rightLength, isXnor.2]), if_pos isXnor.1]
    refine ⟨.internalError, lists, ?_⟩
    rw [run_handle]
    rfl
  · have run : evalDyadicBitArrayOperator func l r lists = (.error .assertion, lists) := by
      have other : ∀ lStr rStr, ¬ (l = .stringLiteral8 lStr ∧ r = .stringLiteral8 rStr) := fun lStr rStr both =>
        strings ⟨describesLeft.string both.1, describesRight.string both.2⟩
      unfold evalDyadicBitArrayOperator
      split
      · exact absurd ⟨rfl, rfl⟩ (other _ _)
      · rfl
    exact ⟨.assertion, lists, by rw [run_handle, run]⟩

theorem free_list (describes : Describes type e lists v) (isList : e.representation = .list) (list : Nat) :
    freeEvalStringLiteral list v lists' = (.ok (), lists') := by
  unfold Describes at describes
  rw [isList] at describes
  obtain ⟨value, rfl, -⟩ := describes
  rfl

theorem free_other (describes : Describes type e lists v) (notList : e.representation ≠ .list)
    (live : e.representation ≠ .destroyed) (list : Nat) :
    freeEvalStringLiteral list v lists' = (.ok (), lists'.set list none) := by
  unfold Describes at describes
  split at describes
  · rw [describes.1]
    rfl
  · obtain ⟨aggr, -, rfl⟩ := describes
    rfl
  · exact absurd ‹_› notList
  · exact absurd ‹_› live
  · rw [describes]
    rfl

theorem literals_shift (func : ShiftFunction) (left : Expr) (count : Int) :
    (Expr.shift func left count).literals type = func.apply ⟨type, 0⟩ count (left.literals type) := by
  unfold Expr.literals
  rw [Expr.marked, ← func.apply_map]
  rfl

theorem length_literals (notOverflow : e.representation ≠ .overflow) : (e.literals type).length = e.size := by
  rw [Expr.literals, List.length_map, Expr.length_marked (Expr.matched_of_representation notOverflow)]

variable (type) in
theorem run_evalShiftOperator (func : ShiftFunction) {list : Nat} (count : Int) {els : List Literal}
    (elements : lists[list]? = some (some els)) : evalShiftOperator type list count func lists =
      if count = 0 ∨ els.length = 0 then (.ok (.simpleAggregate list), lists) else if count.natAbs ≤ 2147483647 then
        (.ok (.simpleAggregate lists.length), lists ++ [some (func.apply ⟨type, 0⟩ count els)])
      else (.error .constraintError, lists) := by
  unfold evalShiftOperator
  rw [run_bind (run_flistElements elements)]
  by_cases nothing : count = 0 ∨ els.length = 0
  · rw [if_pos nothing, if_pos nothing]
    rfl
  rw [if_neg nothing, if_neg nothing]
  have nonempty : els ≠ [] := fun isNil => nothing (Or.inr (by rw [isNil]; rfl))
  have absolute : (if count < 0 then -count else count) = (count.natAbs : Int) := by
    split <;> omega
  by_cases small : count.natAbs ≤ 2147483647
  · have converted : toNatural (if count < 0 then -count else count) = .ok count.natAbs := by
      rw [absolute]
      exact if_pos (by omega)
    have shifted : _ = func.apply ⟨type, 0⟩ count els := shiftedElements_eq nonempty count func
    rw [if_pos small, ← shifted]
    dsimp only
    rw [run_bind (run_lift _ |>.trans (by rw [converted])), run_bind (run_createFlist _)]
    cases func <;> rfl
  · have failed : toNatural (if count < 0 then -count else count) = .error .constraintError := by
      rw [absolute]
      exact if_neg (by omega)
    rw [if_neg small]
    dsimp only
    rw [run_bind_error (run_lift _ |>.trans (by rw [failed]))]

theorem evalDyadicOperator_shift (func : ShiftFunction) (count : Int) (notLeft : l ≠ .overflowLiteral) :
    evalDyadicOperator type (.shift func) l (.integerLiteral count) = handleConstraintError (do
      let leftAggr ← evalStringLiteral type l
      let res ← evalShiftOperator type leftAggr count func
      freeEvalStringLiteral leftAggr l
      return res) := by
  rw [evalDyadicOperator_handled _ (.shift func) notLeft Value.noConfusion]
  rfl

theorem evalShift_succeeds {func : ShiftFunction} {count : Int} (describes : Describes type left lists l)
    (live : left.representation ≠ .destroyed) :
    Succeeds type (.shift func left count) (evalDyadicOperator type (.shift func) l (.integerLiteral count)) lists := by
  by_cases overflow : left.representation = .overflow
  · refine Succeeds.overflow lists (evalDyadicOperator_overflow _ (Or.inl (describes.of_overflow overflow))) (Keeps.refl lists) ?_
    rw [Expr.representation, overflow]
    rfl
  rw [evalDyadicOperator_shift func count (describes.ne_overflow overflow)]
  rcases left.representation.converted_cases with overflows | usable
  · refine Succeeds.overflow lists ?_ (Keeps.refl lists) ?_
    · rw [run_handle, run_bind_error (convert_constraintError describes overflow overflows)]
    · rw [Expr.representation]
      exact if_pos overflows
  obtain ⟨list, lists₁, converted⟩ := convert describes usable live
  have notOverflow : left.representation.converted ≠ .overflow := by
    rw [usable]
    exact Representation.noConfusion
  have run := run_evalShiftOperator type func count converted.elements
  rw [length_literals overflow, ← literals_shift] at run
  have inside := converted.inside
  by_cases nothing : count = 0 ∨ left.size = 0
  · rw [if_pos nothing] at run
    by_cases isList : left.representation = .list
    · -- The value is the operand, which is not freed.
      have same : (Expr.shift func left count).literals type = left.literals type := by
        rw [literals_shift]
        apply func.apply_none
        rwa [length_literals overflow]
      refine Succeeds.list list lists₁ ?_ converted.keeps ?_ (by rw [same, converted.elements])
      · rw [run_handle, run_bind converted.run, run_bind run, run_bind (free_list describes isList list)]
        rfl
      · rw [Expr.representation, if_neg notOverflow, if_pos nothing, if_pos isList]
    -- The value is the list of the operand, which is freed.
    have freed : _ = ((.ok (), lists₁.set list none) : Except Failure Unit × Flists) := free_other describes isList live list
    obtain ⟨lists₃, freed', keeps₃, -⟩ := converted.frees lists lists₁ (Nat.le_refl _) converted.keeps
    have same : lists₃ = lists₁.set list none := (congrArg Prod.snd (freed'.symm.trans freed))
    refine ⟨.simpleAggregate list, lists₃, ?_, keeps₃, ?_⟩
    · rw [run_handle, run_bind converted.run, run_bind run, run_bind freed']
      rfl
    · unfold Describes
      rw [Expr.representation, if_neg notOverflow, if_pos nothing, if_neg isList]
      exact ⟨list, rfl, by rw [same, List.getElem?_set_self inside]⟩
  · rw [if_neg nothing] at run
    by_cases small : count.natAbs ≤ 2147483647
    · rw [if_pos small] at run
      obtain ⟨lists₃, freed, keeps₃, others⟩ :=
        converted.frees lists _ (Nat.le_refl _)
          (converted.keeps.trans (keeps_append lists₁ [some ((Expr.shift func left count).literals type)]))
      refine Succeeds.list lists₁.length lists₃ ?_ keeps₃ ?_ ?_
      · rw [run_handle, run_bind converted.run, run_bind run, run_bind freed]
        rfl
      · rw [Expr.representation, if_neg notOverflow, if_neg nothing, if_pos small]
      · rw [others lists₁.length (by omega)]
        simp
    · rw [if_neg small] at run
      refine Succeeds.overflow lists₁ ?_ converted.keeps ?_
      · rw [run_handle, run_bind converted.run, run_bind_error run]
      · rw [Expr.representation, if_neg notOverflow, if_neg nothing, if_neg small]

theorem evalShift_fails {func : ShiftFunction} {count : Int} (describes : Describes type left lists l)
    (destroyed : left.representation = .destroyed) :
    Fails (evalDyadicOperator type (.shift func) l (.integerLiteral count)) lists := by
  obtain ⟨list, rfl, converted, failed⟩ := convert_destroyed describes destroyed
  have run : evalShiftOperator type list count func lists = (.error .destroyedFlist, lists) := by
    unfold evalShiftOperator
    rw [run_bind_error failed]
  refine ⟨.destroyedFlist, lists, ?_⟩
  rw [evalDyadicOperator_shift func count Value.noConfusion, run_handle, run_bind converted, run_bind_error run]

theorem evalConcatenation_arrayArray :
    evalConcatenation type .arrayArray l r = (do
      let leftAggr ← evalStringLiteral type l
      let leftList ← flistElements leftAggr
      let rightAggr ← evalStringLiteral type r
      let rightList ← flistElements rightAggr
      let resList ← createFlist (leftList ++ rightList)
      freeEvalStringLiteral leftAggr l
      freeEvalStringLiteral rightAggr r
      return .simpleAggregate resList) := by
  simp [evalConcatenation]

/-- The concatenations with one element. -/
def evalExtended (type : ElementType) (v : Value) (extend : List Literal → List Literal) : Eval Value := do
  let aggr ← evalStringLiteral type v
  let list ← flistElements aggr
  let resList ← createFlist (extend list)
  freeEvalStringLiteral aggr v
  return .simpleAggregate resList

theorem evalConcatenation_arrayElement (el : Literal) :
    evalConcatenation type .arrayElement l (.enumerationLiteral el) = evalExtended type l (· ++ [el]) := by
  simp [evalConcatenation, elementOf, evalExtended]

theorem evalConcatenation_elementArray (el : Literal) :
    evalConcatenation type .elementArray (.enumerationLiteral el) r = evalExtended type r (el :: ·) := by
  simp [evalConcatenation, elementOf, evalExtended]

theorem evalDyadicOperator_concat (func : ConcatFunction) (notLeft : l ≠ .overflowLiteral) (notRight : r ≠ .overflowLiteral) :
    evalDyadicOperator type (.concat func) l r = handleConstraintError (evalConcatenation type func l r) :=
  evalDyadicOperator_handled _ (.concat func) notLeft notRight

theorem evalArrayArray_succeeds (describesLeft : Describes type left lists l) (describesRight : Describes type right lists r)
    (suits : left.representation.converted = .overflow ∨ right.representation = .overflow ∨
      left.representation ≠ .destroyed ∧ right.representation ≠ .destroyed) :
    Succeeds type (.arrayArray left right) (evalDyadicOperator type (.concat .arrayArray) l r) lists := by
  by_cases overflow : left.representation = .overflow ∨ right.representation = .overflow
  · have values : l = .overflowLiteral ∨ r = .overflowLiteral :=
      overflow.imp describesLeft.of_overflow describesRight.of_overflow
    refine Succeeds.overflow lists (evalDyadicOperator_overflow _ values) (Keeps.refl lists) ?_
    rw [Expr.representation]
    rcases overflow with isLeft | isRight
    · rw [isLeft]
      rfl
    · rw [isRight]
      exact ite_self _
  rw [not_or] at overflow
  obtain ⟨notLeft, notRight⟩ := overflow
  rw [evalDyadicOperator_concat _ (describesLeft.ne_overflow notLeft) (describesRight.ne_overflow notRight),
    evalConcatenation_arrayArray]
  rcases left.representation.converted_cases with overflows | usable
  · refine Succeeds.overflow lists ?_ (Keeps.refl lists) (if_pos overflows)
    rw [run_handle, run_bind_error (convert_constraintError describesLeft notLeft overflows)]
  have notOverflow : left.representation.converted ≠ .overflow := by
    rw [usable]
    exact Representation.noConfusion
  rcases suits with isOverflow | isOverflow | ⟨liveLeft, liveRight⟩
  · exact absurd isOverflow notOverflow
  · exact absurd isOverflow notRight
  obtain ⟨leftAggr, lists₁, converted⟩ := convert describesLeft usable liveLeft
  have describesRight := describesRight.mono converted.keeps
  rcases right.representation.converted_cases with overflowsRight | usableRight
  · refine Succeeds.overflow lists₁ ?_ converted.keeps ((if_neg notOverflow).trans overflowsRight)
    rw [run_handle, run_bind converted.run, run_bind (run_flistElements converted.elements),
      run_bind_error (convert_constraintError describesRight notRight overflowsRight)]
  obtain ⟨rightAggr, lists₂, converted'⟩ := convert describesRight usableRight liveRight
  have result : left.literals type ++ right.literals type = (Expr.arrayArray left right).literals type := by
    unfold Expr.literals
    rw [Expr.marked, List.map_append]
  have kept := converted.keeps.trans converted'.keeps
  obtain ⟨lists₃, freed, keeps₃, others⟩ := converted.frees lists _ (Nat.le_refl _)
    (kept.trans (keeps_append lists₂ [some ((Expr.arrayArray left right).literals type)]))
  obtain ⟨lists₄, freed', keeps₄, others'⟩ := converted'.frees lists lists₃ converted.keeps.length_le keeps₃
  have inside := Nat.lt_of_lt_of_le converted.inside converted'.keeps.length_le
  have inside' := converted'.inside
  refine Succeeds.list lists₂.length lists₄ ?_ keeps₄ ((if_neg notOverflow).trans usableRight) ?_
  · rw [run_handle, run_bind converted.run, run_bind (run_flistElements converted.elements), run_bind converted'.run,
      run_bind (run_flistElements converted'.elements), result, run_bind (run_createFlist _), run_bind freed,
      run_bind freed']
    rfl
  · rw [others' lists₂.length (by omega), others lists₂.length (by omega)]
    simp

theorem evalArrayArray_fails (describesLeft : Describes type left lists l) (describesRight : Describes type right lists r)
    (unsuited : ¬ (left.representation.converted = .overflow ∨ right.representation = .overflow ∨
      left.representation ≠ .destroyed ∧ right.representation ≠ .destroyed)) :
    Fails (evalDyadicOperator type (.concat .arrayArray) l r) lists := by
  rw [not_or, not_or] at unsuited
  obtain ⟨notConverted, notRight, destroyed⟩ := unsuited
  have notLeft : left.representation ≠ .overflow := fun overflow => notConverted (by rw [overflow]; rfl)
  rw [evalDyadicOperator_concat _ (describesLeft.ne_overflow notLeft) (describesRight.ne_overflow notRight),
    evalConcatenation_arrayArray]
  by_cases isLeft : left.representation = .destroyed
  · obtain ⟨list, rfl, converted, failed⟩ := convert_destroyed describesLeft isLeft
    refine ⟨.destroyedFlist, lists, ?_⟩
    rw [run_handle, run_bind converted, run_bind_error failed]
  have isRight : right.representation = .destroyed :=
    Classical.not_not.mp fun liveRight => destroyed ⟨isLeft, liveRight⟩
  have usable := left.representation.converted_cases.resolve_left notConverted
  obtain ⟨leftAggr, lists₁, converted⟩ := convert describesLeft usable isLeft
  obtain ⟨list, rfl, converted', failed⟩ := convert_destroyed (describesRight.mono converted.keeps) isRight
  refine ⟨.destroyedFlist, lists₁, ?_⟩
  rw [run_handle, run_bind converted.run, run_bind (run_flistElements converted.elements), run_bind converted',
    run_bind_error failed]

theorem evalExtended_succeeds {extend : List Literal → List Literal} (describes : Describes type left lists l)
    (live : left.representation ≠ .destroyed) (overflow : left.representation ≠ .overflow)
    (same : e.representation = left.representation.converted) (result : extend (left.literals type) = e.literals type) :
    Succeeds type e (handleConstraintError (evalExtended type l extend)) lists := by
  unfold evalExtended
  rcases left.representation.converted_cases with overflows | usable
  · refine Succeeds.overflow lists ?_ (Keeps.refl lists) (same.trans overflows)
    rw [run_handle, run_bind_error (convert_constraintError describes overflow overflows)]
  obtain ⟨list, lists₁, converted⟩ := convert describes usable live
  have inside := converted.inside
  obtain ⟨lists₃, freed, keeps₃, others⟩ := converted.frees lists _ (Nat.le_refl _)
    (converted.keeps.trans (keeps_append lists₁ [some (e.literals type)]))
  refine Succeeds.list lists₁.length lists₃ ?_ keeps₃ (same.trans usable) ?_
  · rw [run_handle, run_bind converted.run, run_bind (run_flistElements converted.elements), result,
      run_bind (run_createFlist _), run_bind freed]
    rfl
  · rw [others lists₁.length (by omega)]
    simp

theorem evalExtended_fails {extend : List Literal → List Literal} (describes : Describes type left lists l)
    (destroyed : left.representation = .destroyed) : Fails (handleConstraintError (evalExtended type l extend)) lists := by
  obtain ⟨list, rfl, converted, failed⟩ := convert_destroyed describes destroyed
  refine ⟨.destroyedFlist, lists, ?_⟩
  rw [run_handle, evalExtended, run_bind converted, run_bind_error failed]

theorem evalArrayElement_succeeds (el : Bool) (describes : Describes type left lists l)
    (live : left.representation ≠ .destroyed) : Succeeds type (.arrayElement left el)
      (evalDyadicOperator type (.concat .arrayElement) l (.enumerationLiteral (.ofBool type el))) lists := by
  by_cases overflow : left.representation = .overflow
  · refine Succeeds.overflow lists (evalDyadicOperator_overflow _ (Or.inl (describes.of_overflow overflow))) (Keeps.refl lists) ?_
    rw [Expr.representation, overflow]
    rfl
  rw [evalDyadicOperator_concat _ (describes.ne_overflow overflow) Value.noConfusion, evalConcatenation_arrayElement]
  apply evalExtended_succeeds describes live overflow rfl
  unfold Expr.literals
  rw [Expr.marked, List.map_append]
  rfl

theorem evalArrayElement_fails (el : Bool) (describes : Describes type left lists l)
    (destroyed : left.representation = .destroyed) :
    Fails (evalDyadicOperator type (.concat .arrayElement) l (.enumerationLiteral (.ofBool type el))) lists := by
  have overflow : left.representation ≠ .overflow := by simp [destroyed]
  rw [evalDyadicOperator_concat _ (describes.ne_overflow overflow) Value.noConfusion, evalConcatenation_arrayElement]
  exact evalExtended_fails describes destroyed

theorem evalElementArray_succeeds (el : Bool) (describes : Describes type right lists r)
    (live : right.representation ≠ .destroyed) : Succeeds type (.elementArray el right)
      (evalDyadicOperator type (.concat .elementArray) (.enumerationLiteral (.ofBool type el)) r) lists := by
  by_cases overflow : right.representation = .overflow
  · refine Succeeds.overflow lists (evalDyadicOperator_overflow _ (Or.inr (describes.of_overflow overflow))) (Keeps.refl lists) ?_
    rw [Expr.representation, overflow]
    rfl
  rw [evalDyadicOperator_concat _ Value.noConfusion (describes.ne_overflow overflow), evalConcatenation_elementArray]
  exact evalExtended_succeeds describes live overflow rfl rfl

theorem evalElementArray_fails (el : Bool) (describes : Describes type right lists r)
    (destroyed : right.representation = .destroyed) :
    Fails (evalDyadicOperator type (.concat .elementArray) (.enumerationLiteral (.ofBool type el)) r) lists := by
  have overflow : right.representation ≠ .overflow := by simp [destroyed]
  rw [evalDyadicOperator_concat _ Value.noConfusion (describes.ne_overflow overflow), evalConcatenation_elementArray]
  exact evalExtended_fails describes destroyed

theorem evalElementElement_succeeds (left right : Bool) :
    Succeeds type (.elementElement left right) (evalDyadicOperator type (.concat .elementElement)
      (.enumerationLiteral (.ofBool type left)) (.enumerationLiteral (.ofBool type right))) lists := by
  refine Succeeds.list lists.length (lists ++ [some [.ofBool type left, .ofBool type right]]) rfl
    (keeps_append lists _) rfl ?_
  simp [Expr.literals, Expr.marked, Literal.ofBool]

end Dyadic

theorem Succeeds.after {x : Eval Value} {f : Value → Eval Value} {operand : Expr} (first : Succeeds type operand x lists)
    (rest : ∀ v lists', Describes type operand lists' v → Succeeds type e (f v) lists') : Succeeds type e (x >>= f) lists := by
  obtain ⟨v, lists₁, run, keeps, describes⟩ := first
  obtain ⟨v', lists₂, run', keeps', describes'⟩ := rest v lists₁ describes
  exact ⟨v', lists₂, by rw [run_bind run, run'], keeps.trans keeps', describes'⟩

theorem Fails.first {x : Eval Value} {f : Value → Eval Value} (first : Fails x lists) : Fails (x >>= f) lists := by
  obtain ⟨failure, lists₁, run⟩ := first
  exact ⟨failure, lists₁, run_bind_error run⟩

theorem Fails.after {x : Eval Value} {f : Value → Eval Value} {operand : Expr} (first : Succeeds type operand x lists)
    (rest : ∀ v lists', Describes type operand lists' v → Fails (f v) lists') : Fails (x >>= f) lists := by
  obtain ⟨v, lists₁, run, -, describes⟩ := first
  obtain ⟨failure, lists₂, run'⟩ := rest v lists₁ describes
  exact ⟨failure, lists₂, by rw [run_bind run, run']⟩

theorem Succeeds.operands {x y : Eval Value} {f : Value → Value → Eval Value} {left right : Expr}
    (first : Succeeds type left x lists) (second : ∀ lists, Succeeds type right y lists)
    (rest : ∀ l r lists, Describes type left lists l → Describes type right lists r → Succeeds type e (f l r) lists) :
    Succeeds type e (x >>= fun l => y >>= fun r => f l r) lists := by
  obtain ⟨l, lists₁, run, keeps, describes⟩ := first
  obtain ⟨r, lists₂, run', keeps', describes'⟩ := second lists₁
  obtain ⟨v, lists₃, run'', keeps'', describes''⟩ := rest l r lists₂ (describes.mono keeps') describes'
  exact ⟨v, lists₃, by rw [run_bind run, run_bind run', run''], (keeps.trans keeps').trans keeps'', describes''⟩

theorem evalStaticExpr_succeeds (e : Expr) (suits : e.Suits) : ∀ lists, Succeeds type e (evalStaticExpr type e) lists := by
  induction e with
  | stringLiteral8 bits =>
    intro lists
    refine ⟨_, lists, rfl, Keeps.refl lists, ?_, ?_⟩
    · simp [Expr.marked, Function.comp_def]
    · simp [Expr.marked]
  | aggregate aggr => exact fun lists => ⟨_, lists, rfl, Keeps.refl lists, aggr, rfl, rfl⟩
  | not operand ih =>
    exact fun lists => (ih suits.1 lists).after fun _ _ describes => evalMonadicOperator_succeeds describes suits.2
  | tfArray func left right ihLeft ihRight =>
    obtain ⟨suitsLeft, suitsRight, operands⟩ := suits
    exact fun lists => (ihLeft suitsLeft lists).operands (ihRight suitsRight) fun _ _ _ describesLeft describesRight =>
      evalTfArray_succeeds describesLeft describesRight operands
  | shift func left count ih =>
    exact fun lists => (ih suits.1 lists).after fun _ _ describes => evalShift_succeeds describes suits.2
  | arrayArray left right ihLeft ihRight =>
    obtain ⟨suitsLeft, suitsRight, operands⟩ := suits
    exact fun lists => (ihLeft suitsLeft lists).operands (ihRight suitsRight) fun _ _ _ describesLeft describesRight =>
      evalArrayArray_succeeds describesLeft describesRight operands
  | arrayElement left right ih =>
    exact fun lists => (ih suits.1 lists).after fun _ _ describes => evalArrayElement_succeeds right describes suits.2
  | elementArray left right ih =>
    exact fun lists => (ih suits.1 lists).after fun _ _ describes => evalElementArray_succeeds left describes suits.2
  | elementElement left right => exact fun lists => evalElementElement_succeeds left right

theorem Fails.operand {f : Value → Eval Value} {operand : Expr}
    (ih : ¬ operand.Suits → ∀ lists, Fails (evalStaticExpr type operand) lists)
    (unsuited : ¬ (operand.Suits ∧ operand.representation ≠ .destroyed))
    (rest : ∀ v lists, Describes type operand lists v → operand.representation = .destroyed → Fails (f v) lists) :
    ∀ lists, Fails (evalStaticExpr type operand >>= f) lists := by
  intro lists
  by_cases suits : operand.Suits
  · exact .after (evalStaticExpr_succeeds operand suits lists) fun v lists describes =>
      rest v lists describes (Classical.not_not.mp fun live => unsuited ⟨suits, live⟩)
  exact (ih suits lists).first

theorem Fails.operands {operands : Prop} {f : Value → Value → Eval Value} {left right : Expr}
    (ihLeft : ¬ left.Suits → ∀ lists, Fails (evalStaticExpr type left) lists)
    (ihRight : ¬ right.Suits → ∀ lists, Fails (evalStaticExpr type right) lists)
    (unsuited : ¬ (left.Suits ∧ right.Suits ∧ operands))
    (rest : ∀ l r lists, Describes type left lists l → Describes type right lists r → ¬ operands → Fails (f l r) lists) :
    ∀ lists, Fails (evalStaticExpr type left >>= fun l => evalStaticExpr type right >>= fun r => f l r) lists := by
  intro lists
  by_cases suitsLeft : left.Suits
  · refine .after (evalStaticExpr_succeeds left suitsLeft lists) fun l lists₁ describes => ?_
    by_cases suitsRight : right.Suits
    · obtain ⟨r, lists₂, run, keeps, describes'⟩ := evalStaticExpr_succeeds right suitsRight lists₁
      obtain ⟨failure, lists₃, run'⟩ := rest l r lists₂ (describes.mono keeps) describes'
        fun holds => unsuited ⟨suitsLeft, suitsRight, holds⟩
      exact ⟨failure, lists₃, by rw [run_bind run, run']⟩
    exact (ihRight suitsRight lists₁).first
  exact (ihLeft suitsLeft lists).first

theorem evalStaticExpr_fails (e : Expr) (unsuited : ¬ e.Suits) : ∀ lists, Fails (evalStaticExpr type e) lists := by
  induction e with
  | stringLiteral8 bits | aggregate aggr | elementElement left right => exact absurd trivial unsuited
  | not operand ih => exact .operand ih unsuited fun _ _ describes => evalMonadicOperator_fails describes
  | tfArray func left right ihLeft ihRight =>
    exact .operands ihLeft ihRight unsuited fun _ _ _ left right => evalTfArray_fails left right
  | shift func left count ih => exact .operand ih unsuited fun _ _ describes => evalShift_fails describes
  | arrayArray left right ihLeft ihRight =>
    exact .operands ihLeft ihRight unsuited fun _ _ _ left right => evalArrayArray_fails left right
  | arrayElement left right ih => exact .operand ih unsuited fun _ _ describes => evalArrayElement_fails right describes
  | elementArray left right ih => exact .operand ih unsuited fun _ _ describes => evalElementArray_fails left describes

/-- The elements of an array value. -/
def IsArray (type : ElementType) (lists : Flists) (els : List Literal) : Value → Prop
  | .stringLiteral8 positions => literalsOf type positions = els
  | .aggregate aggr => aggr.elements.map (.ofBool type) = els
  | .simpleAggregate list => lists[list]? = some (some els)
  | _ => False

/-- The evaluation returns the elements that the operators give, or an overflow literal for an error. -/
def Agrees (type : ElementType) (e : Expr) (lists : Flists) : Prop :=
  ∃ v lists', evalStaticExpr type e lists = (.ok v, lists') ∧
    match lrm e with
    | some bits => IsArray type lists' (bits.map (.ofBool type)) v
    | none => v = .overflowLiteral

/-- No element was made by `not`, unless they all are of type `BIT`. -/
def Typed (type : ElementType) (e : Expr) : Prop := type = .bit ∨ ∀ el ∈ e.marked, el.2 = false

theorem literals_eq_iff : e.literals type = (e.marked.map Prod.fst).map (.ofBool type) ↔ Typed type e := by
  unfold Expr.literals Typed
  rw [List.map_map, List.map_inj_left]
  refine ⟨fun same => ?_, fun typed el inside => ?_⟩
  · apply Classical.or_iff_not_imp_left.mpr
    intro notBit el inside
    have types : (if el.2 then ElementType.bit else type) = type := congrArg Literal.type (same el inside)
    cases isMarked : el.2 with
    | false => rfl
    | true =>
      rw [isMarked] at types
      exact absurd types.symm notBit
  · rcases typed with rfl | unmarked
    · rw [ite_self]
      rfl
    · rw [unmarked el inside]
      rfl

theorem isArray_iff (describes : Describes type e lists v) (notOverflow : e.representation ≠ .overflow) :
    IsArray type lists ((e.marked.map Prod.fst).map (.ofBool type)) v ↔ e.representation ≠ .destroyed ∧ Typed type e := by
  unfold Describes at describes
  cases isKind : e.representation with
  | string =>
    rw [isKind] at describes
    obtain ⟨rfl, unmarked⟩ := describes
    refine iff_of_true ?_ ⟨Representation.noConfusion, Or.inr unmarked⟩
    simp [IsArray, literalsOf, Literal.ofBool]
  | aggregate converts =>
    rw [isKind] at describes
    obtain ⟨aggr, rfl, rfl⟩ := describes
    refine iff_of_true ?_ ⟨Representation.noConfusion, Or.inr (by simp [Expr.marked])⟩
    simp [IsArray, Expr.marked]
  | list =>
    rw [isKind] at describes
    obtain ⟨list, rfl, isList⟩ := describes
    rw [IsArray, isList, Option.some_inj, Option.some_inj, literals_eq_iff]
    exact ⟨fun typed => ⟨Representation.noConfusion, typed⟩, And.right⟩
  | destroyed =>
    rw [isKind] at describes
    obtain ⟨list, rfl, isList⟩ := describes
    rw [IsArray, isList]
    exact iff_of_false (by simp) fun both => both.1 rfl
  | overflow => exact absurd isKind notOverflow

end Ghdl.Evaluation
