import Ghdl.Vhdl.ArrayOperators

/-!
# Values of array expressions

Each operator returns one kind of value: a string literal, or a simple aggregate with a list. The kind follows from the
expression alone, and so do the elements, with a mark on those whose type is always `BIT`. An operand is converted to a
list of these elements, unless its list is destroyed or the conversion raises an exception.
-/

namespace Ghdl.Evaluation

open Fallible

/-- The kinds of values, and whether an aggregate is converted to a list. -/
inductive Representation
  | string
  | aggregate (converts : Bool)
  | list
  | destroyed
  | overflow
deriving DecidableEq, Repr

/-- What is left of an operand that was converted to a list. -/
def Representation.converted : Representation → Representation
  | .overflow | .aggregate false => .overflow
  | _ => .list

/-- The number of elements. -/
def Expr.size : Expr → Nat
  | .stringLiteral8 bits => bits.length
  | .aggregate aggr => aggr.range.length
  | .not operand => operand.size
  | .tfArray _ left _ => left.size
  | .shift _ left _ => left.size
  | .arrayArray left right => left.size + right.size
  | .arrayElement left _ => left.size + 1
  | .elementArray _ right => right.size + 1
  | .elementElement _ _ => 2

/-- The kind of the value of an expression. -/
def Expr.representation : Expr → Representation
  | .stringLiteral8 _ => .string
  | .aggregate aggr => .aggregate aggr.converts
  | .not operand => operand.representation.converted
  | .tfArray _ left right =>
    if left.representation = .overflow ∨ right.representation = .overflow ∨ left.size ≠ right.size then .overflow
    else .string
  | .shift _ left count =>
    if left.representation.converted = .overflow then .overflow
    else if count = 0 ∨ left.size = 0 then if left.representation = .list then .list else .destroyed
    else if count.natAbs ≤ 2147483647 then .list
    else .overflow
  | .arrayArray left right =>
    if left.representation.converted = .overflow then .overflow else right.representation.converted
  | .arrayElement left _ => left.representation.converted
  | .elementArray _ right => right.representation.converted
  | .elementElement _ _ => .list

/-- Each operator is given values of a kind that it works on. -/
def Expr.Suits : Expr → Prop
  | .stringLiteral8 _ | .aggregate _ | .elementElement _ _ => True
  | .not operand => operand.Suits ∧ operand.representation ≠ .destroyed
  | .tfArray func left right => left.Suits ∧ right.Suits ∧
    (left.representation = .overflow ∨ right.representation = .overflow ∨
      left.representation = .string ∧ right.representation = .string ∧ (func = .xnor → left.size ≠ right.size))
  | .shift _ left _ => left.Suits ∧ left.representation ≠ .destroyed
  | .arrayArray left right => left.Suits ∧ right.Suits ∧
    (left.representation.converted = .overflow ∨ right.representation = .overflow ∨
      left.representation ≠ .destroyed ∧ right.representation ≠ .destroyed)
  | .arrayElement left _ => left.Suits ∧ left.representation ≠ .destroyed
  | .elementArray _ right => right.Suits ∧ right.representation ≠ .destroyed

/-- Some logical operator has operands of different lengths. -/
def Expr.Mismatched : Expr → Prop
  | .stringLiteral8 _ | .aggregate _ | .elementElement _ _ => False
  | .not operand => operand.Mismatched
  | .tfArray _ left right => left.Mismatched ∨ right.Mismatched ∨ left.size ≠ right.size
  | .shift _ left _ => left.Mismatched
  | .arrayArray left right => left.Mismatched ∨ right.Mismatched
  | .arrayElement left _ => left.Mismatched
  | .elementArray _ right => right.Mismatched

/-- The elements, each with a mark that says whether `not` made it. -/
def Expr.marked : Expr → List (Bool × Bool)
  | .stringLiteral8 bits => bits.map fun b => (b, false)
  | .aggregate aggr => aggr.elements.map fun b => (b, false)
  | .not operand => operand.marked.map fun el => (!el.1, true)
  | .tfArray func left right => List.zipWith (fun l r => (func.apply l.1 r.1, false)) left.marked right.marked
  | .shift func left count => func.apply (false, false) count left.marked
  | .arrayArray left right => left.marked ++ right.marked
  | .arrayElement left right => left.marked ++ [(right, false)]
  | .elementArray left right => (left, false) :: right.marked
  | .elementElement left right => [(left, false), (right, false)]

/-- The literals of the elements. -/
def Expr.literals (type : ElementType) (e : Expr) : List Literal :=
  e.marked.map fun el => ⟨if el.2 then .bit else type, el.1.toNat⟩

section Elements

variable {α β : Type}

section

variable (func : ShiftFunction)
include func

theorem ShiftFunction.step_map (f : α → β) (fill : α) (l : List α) :
    func.step (f fill) (l.map f) = (func.step fill l).map f := by
  cases func <;>
    simp [step, Shifts.left, Shifts.right, Shifts.leftRepeat, Shifts.rightRepeat, Shifts.rotateLeft, Shifts.rotateRight,
      List.dropLast_eq_take, List.map_tail, List.map_take, Option.toList_map]

theorem ShiftFunction.apply_map (f : α → β) (fill : α) (count : Int) (l : List α) :
    func.apply (f fill) count (l.map f) = (func.apply fill count l).map f := by
  have steps : ∀ (func : ShiftFunction) (n : Nat), (func.step (f fill))^[n] (l.map f) = ((func.step fill)^[n] l).map f := by
    intro func n
    induction n with
    | zero => rfl
    | succ n ih => rw [Function.iterate_succ_apply', Function.iterate_succ_apply', ih, step_map]
  unfold apply
  split
  · exact steps _ _
  · exact steps _ _

theorem ShiftFunction.length_apply (fill : α) (count : Int) (l : List α) :
    (func.apply fill count l).length = l.length := by
  have one : ∀ (func : ShiftFunction) (l : List α), (func.step fill l).length = l.length := by
    intro func l
    cases func with
    | ror => exact Shifts.length_rotateRight l
    | _ =>
      cases l <;> simp [step, Shifts.left, Shifts.right, Shifts.leftRepeat, Shifts.rightRepeat, Shifts.rotateLeft]
  have steps : ∀ (func : ShiftFunction) (n : Nat), ((func.step fill)^[n] l).length = l.length := by
    intro func n
    induction n with
    | zero => rfl
    | succ n ih => rw [Function.iterate_succ_apply', one, ih]
  unfold apply
  split
  · exact steps _ _
  · exact steps _ _

theorem ShiftFunction.apply_none (fill : α) {count : Int} {l : List α}
    (nothing : count = 0 ∨ l.length = 0) : func.apply fill count l = l := by
  rcases nothing with rfl | empty
  · rfl
  · have isNil := List.eq_nil_of_length_eq_zero (((func.length_apply fill count l).trans empty))
    rw [isNil, List.eq_nil_of_length_eq_zero empty]

end

end Elements

theorem Expr.length_marked {e : Expr} (matched : ¬ e.Mismatched) : e.marked.length = e.size := by
  induction e with
  | stringLiteral8 bits => exact List.length_map _
  | aggregate aggr => exact (List.length_map _).trans aggr.length_elements
  | not operand ih => exact (List.length_map _).trans (ih matched)
  | tfArray func left right ihLeft ihRight =>
    have leftLength := ihLeft fun l => matched (Or.inl l)
    have rightLength := ihRight fun r => matched (Or.inr (Or.inl r))
    have same : left.size = right.size := Classical.not_not.mp fun other => matched (Or.inr (Or.inr other))
    simp [marked, size, leftLength, rightLength, same]
  | shift func left count ih => exact (func.length_apply _ _ _).trans (ih matched)
  | arrayArray left right ihLeft ihRight =>
    have leftLength := ihLeft fun l => matched (Or.inl l)
    have rightLength := ihRight fun r => matched (Or.inr r)
    simp [marked, size, leftLength, rightLength]
  | arrayElement left right ih | elementArray left right ih => simp [marked, size, ih matched]
  | elementElement left right => rfl

theorem lrm_eq (e : Expr) :
    (e.Mismatched → lrm e = none) ∧ (¬ e.Mismatched → lrm e = some (e.marked.map Prod.fst)) := by
  induction e with
  | stringLiteral8 bits | aggregate aggr =>
    refine ⟨False.elim, fun _ => ?_⟩
    simp [lrm, Expr.marked, Function.comp_def]
  | not operand ih =>
    refine ⟨fun mismatched => ?_, fun matched => ?_⟩
    · rw [lrm, ih.1 mismatched]
      rfl
    · rw [lrm, ih.2 matched]
      simp [Expr.marked, Function.comp_def]
  | tfArray func left right ihLeft ihRight =>
    rw [lrm]
    by_cases inLeft : left.Mismatched
    · rw [ihLeft.1 inLeft]
      exact ⟨fun _ => rfl, fun matched => absurd (Or.inl inLeft) matched⟩
    rw [ihLeft.2 inLeft]
    by_cases inRight : right.Mismatched
    · rw [ihRight.1 inRight]
      exact ⟨fun _ => rfl, fun matched => absurd (Or.inr (Or.inl inRight)) matched⟩
    rw [ihRight.2 inRight]
    have leftLength := Expr.length_marked inLeft
    have rightLength := Expr.length_marked inRight
    show (_ → (if _ then _ else _) = _) ∧ (_ → (if _ then _ else _) = _)
    rw [List.length_map, List.length_map, leftLength, rightLength]
    by_cases same : left.size = right.size
    · rw [if_pos same]
      refine ⟨fun mismatched => absurd mismatched ?_, fun _ => ?_⟩
      · exact fun some => some.elim inLeft fun some => some.elim inRight fun other => other same
      · show some _ = some _
        rw [Expr.marked, List.map_zipWith, List.zipWith_map]
    · rw [if_neg same]
      exact ⟨fun _ => rfl, fun matched => absurd (Or.inr (Or.inr same)) matched⟩
  | shift func left count ih =>
    refine ⟨fun mismatched => ?_, fun matched => ?_⟩
    · rw [lrm, ih.1 mismatched]
      rfl
    · rw [lrm, ih.2 matched]
      exact congrArg some (func.apply_map Prod.fst (false, false) count left.marked)
  | arrayArray left right ihLeft ihRight =>
    rw [lrm]
    by_cases inLeft : left.Mismatched
    · rw [ihLeft.1 inLeft]
      exact ⟨fun _ => rfl, fun matched => absurd (Or.inl inLeft) matched⟩
    rw [ihLeft.2 inLeft]
    by_cases inRight : right.Mismatched
    · rw [ihRight.1 inRight]
      exact ⟨fun _ => rfl, fun matched => absurd (Or.inr inRight) matched⟩
    · rw [ihRight.2 inRight]
      refine ⟨fun mismatched => absurd mismatched fun some => some.elim inLeft inRight, fun _ => ?_⟩
      exact congrArg some List.map_append.symm
  | arrayElement left right ih =>
    refine ⟨fun mismatched => ?_, fun matched => ?_⟩
    · rw [lrm, ih.1 mismatched]
      rfl
    · rw [lrm, ih.2 matched]
      simp [Expr.marked]
  | elementArray left right ih =>
    refine ⟨fun mismatched => ?_, fun matched => ?_⟩
    · rw [lrm, ih.1 mismatched]
      rfl
    · rw [lrm, ih.2 matched]
      rfl
  | elementElement left right => exact ⟨False.elim, fun _ => rfl⟩

theorem Expr.representation_of_mismatched {e : Expr} (mismatched : e.Mismatched) : e.representation = .overflow := by
  induction e with
  | stringLiteral8 bits | aggregate aggr | elementElement left right => exact mismatched.elim
  | not operand ih | shift func left count ih | arrayElement left right ih | elementArray left right ih =>
    rw [representation, ih mismatched]
    rfl
  | tfArray func left right ihLeft ihRight =>
    rw [representation]
    apply if_pos
    rcases mismatched with inLeft | inRight | other
    · exact Or.inl (ihLeft inLeft)
    · exact Or.inr (Or.inl (ihRight inRight))
    · exact Or.inr (Or.inr other)
  | arrayArray left right ihLeft ihRight =>
    rw [representation]
    rcases mismatched with inLeft | inRight
    · rw [ihLeft inLeft]
      rfl
    · rw [ihRight inRight]
      exact ite_self _

section Runs

variable {α β : Type} {x : Eval α} {f : α → Eval β} {a : α} {failure : Failure} {lists lists' : Flists}

theorem run_bind (run : x lists = (.ok a, lists')) : (x >>= f) lists = f a lists' := by
  show (ExceptT.bindCont f (x lists).1) (x lists).2 = _
  rw [run]
  rfl

theorem run_bind_error (run : x lists = (.error failure, lists')) : (x >>= f) lists = (.error failure, lists') := by
  show (ExceptT.bindCont f (x lists).1) (x lists).2 = _
  rw [run]
  rfl

theorem run_lift (x : Except Failure α) : (liftM x : Eval α) lists = (x, lists) := rfl

theorem run_flistElements {list : Nat} {els : List Literal} (live : lists[list]? = some (some els)) :
    flistElements list lists = (.ok els, lists) := by
  have run : (get : Eval Flists) lists = (.ok lists, lists) := rfl
  unfold flistElements
  rw [run_bind run, live]
  rfl

theorem run_flistElements_destroyed {list : Nat} (destroyed : lists[list]? = some none) :
    flistElements list lists = (.error .destroyedFlist, lists) := by
  have run : (get : Eval Flists) lists = (.ok lists, lists) := rfl
  unfold flistElements
  rw [run_bind run, destroyed]
  rfl

theorem run_createFlist (els : List Literal) : createFlist els lists = (.ok lists.length, lists ++ [some els]) := rfl

theorem run_handle (x : Eval Value) : handleConstraintError x lists =
    match x lists with
    | (.ok v, lists') => (.ok v, lists')
    | (.error .constraintError, lists') => (.ok .overflowLiteral, lists')
    | (.error failure, lists') => (.error failure, lists') := by
  show (tryCatch x _ : Eval Value) lists = _
  simp only [tryCatch, tryCatchThe, MonadExceptOf.tryCatch, ExceptT.tryCatch, ExceptT.mk, bind, StateT.bind]
  obtain ⟨result, after⟩ := x lists
  cases result with
  | ok v => rfl
  | error failure => cases failure <;> rfl

end Runs

/-- The lists are still there. -/
def Keeps (lists lists' : Flists) : Prop := ∀ (list : Nat), list < lists.length → lists'[list]? = lists[list]?

theorem Keeps.refl (lists : Flists) : Keeps lists lists := fun _ _ => rfl

theorem Keeps.length_le {lists lists' : Flists} (keeps : Keeps lists lists') : lists.length ≤ lists'.length := by
  apply Nat.le_of_not_lt
  intro shorter
  have same := keeps lists'.length shorter
  rw [List.getElem?_eq_none (Nat.le_refl _), List.getElem?_eq_getElem shorter] at same
  exact absurd same (by simp)

theorem Keeps.trans {lists lists' lists'' : Flists} (first : Keeps lists lists') (second : Keeps lists' lists'') :
    Keeps lists lists'' := by
  intro list inside
  rw [second list (Nat.lt_of_lt_of_le inside first.length_le), first list inside]

theorem keeps_append (lists : Flists) (l : Flists) : Keeps lists (lists ++ l) := fun _ inside =>
  List.getElem?_append_left inside

theorem keeps_set {lists lists' : Flists} (keeps : Keeps lists lists') {list : Nat} (above : lists.length ≤ list) :
    Keeps lists (lists'.set list none) := by
  intro other inside
  rw [List.getElem?_set_ne (by omega)]
  exact keeps other inside

/-- The value of an expression. -/
def Describes (type : ElementType) (e : Expr) (lists : Flists) (v : Value) : Prop :=
  match e.representation with
  | .string => v = .stringLiteral8 (e.marked.map fun el => el.1.toNat) ∧ ∀ el ∈ e.marked, el.2 = false
  | .aggregate _ => ∃ aggr, e = .aggregate aggr ∧ v = .aggregate aggr
  | .list => ∃ list, v = .simpleAggregate list ∧ lists[list]? = some (some (e.literals type))
  | .destroyed => ∃ list, v = .simpleAggregate list ∧ lists[list]? = some none
  | .overflow => v = .overflowLiteral

variable {type : ElementType} {e : Expr} {lists lists' : Flists} {v : Value}

theorem Describes.mono (describes : Describes type e lists v) (keeps : Keeps lists lists') :
    Describes type e lists' v := by
  unfold Describes at describes ⊢
  have still : ∀ {list : Nat} {o : Option (List Literal)}, lists[list]? = some o → lists'[list]? = some o := by
    intro list o isList
    obtain ⟨inside, -⟩ := List.getElem?_eq_some_iff.mp isList
    exact (keeps list inside).trans isList
  split at describes
  · exact describes
  · exact describes
  · obtain ⟨list, isValue, isList⟩ := describes
    exact ⟨list, isValue, still isList⟩
  · obtain ⟨list, isValue, isList⟩ := describes
    exact ⟨list, isValue, still isList⟩
  · exact describes

/-- An operand is converted to a list of its elements. To free it leaves the lists that were there before. -/
structure Converted (type : ElementType) (e : Expr) (v : Value) (lists : Flists) (list : Nat) (lists' : Flists) : Prop where
  run : evalStringLiteral type v lists = (.ok list, lists')
  elements : lists'[list]? = some (some (e.literals type))
  keeps : Keeps lists lists'
  frees : ∀ earlier now : Flists, earlier.length ≤ lists.length → Keeps earlier now →
    ∃ later, freeEvalStringLiteral list v now = (.ok (), later) ∧ Keeps earlier later ∧
      ∀ other, other ≠ list → later[other]? = now[other]?

theorem Converted.inside {list : Nat} (converted : Converted type e v lists list lists') : list < lists'.length :=
  (List.getElem?_eq_some_iff.mp converted.elements).1

section

variable (describes : Describes type e lists v)
include describes

theorem convert (usable : e.representation.converted = .list)
    (live : e.representation ≠ .destroyed) : ∃ list lists₁, Converted type e v lists list lists₁ := by
  have fresh : ∀ els, (∀ list, v ≠ .simpleAggregate list) → els = e.literals type →
      evalStringLiteral type v lists = (.ok lists.length, lists ++ [some els]) →
      ∃ list lists₁, Converted type e v lists list lists₁ := by
    intro els notList isEls run
    refine ⟨lists.length, lists ++ [some els], run, by simp [isEls], keeps_append lists _, fun earlier now before keeps => ?_⟩
    refine ⟨now.set lists.length none, ?_, keeps_set keeps before, ?_⟩
    · cases v with
      | simpleAggregate list => exact absurd rfl (notList list)
      | _ => rfl
    · exact fun other different => List.getElem?_set_ne different.symm
  unfold Describes at describes
  cases isKind : e.representation with
  | string =>
    rw [isKind] at describes
    obtain ⟨rfl, unmarked⟩ := describes
    apply fresh (literalsOf type (e.marked.map fun el => el.1.toNat)) (by simp) ?_ rfl
    unfold literalsOf Expr.literals
    rw [List.map_map]
    apply List.map_congr_left
    intro el inside
    rw [Function.comp_apply, unmarked el inside]
    rfl
  | aggregate converts =>
    rw [isKind] at describes usable
    obtain ⟨aggr, rfl, rfl⟩ := describes
    have isConverts : aggr.converts = true := by
      have same : aggr.converts = converts := by
        have kinds : Representation.aggregate aggr.converts = .aggregate converts := isKind
        injection kinds
      rw [same]
      cases converts with
      | true => rfl
      | false => exact absurd usable (by simp [Representation.converted])
    apply fresh (literalsOf type (aggr.elements.map Bool.toNat)) (by simp)
    · unfold literalsOf Expr.literals Expr.marked
      rw [List.map_map, List.map_map]
      rfl
    · unfold evalStringLiteral
      dsimp only
      rw [run_bind (run_lift _ |>.trans (by rw [aggregateElements_eq isConverts]))]
      rfl
  | list =>
    rw [isKind] at describes
    obtain ⟨list, rfl, isList⟩ := describes
    exact ⟨list, lists, rfl, isList, Keeps.refl lists, fun _ now _ keeps => ⟨now, rfl, keeps, fun _ _ => rfl⟩⟩
  | destroyed => exact absurd isKind live
  | overflow =>
    rw [isKind] at usable
    exact absurd usable (by simp [Representation.converted])

theorem convert_constraintError (notOverflow : e.representation ≠ .overflow)
    (overflows : e.representation.converted = .overflow) :
    evalStringLiteral type v lists = (.error .constraintError, lists) := by
  unfold Describes at describes
  cases isKind : e.representation with
  | aggregate converts =>
    rw [isKind] at describes overflows
    obtain ⟨aggr, rfl, rfl⟩ := describes
    have outside : aggr.converts = false := by
      have kinds : Representation.aggregate aggr.converts = .aggregate converts := isKind
      injection kinds with same
      rw [same]
      cases converts with
      | true => exact absurd overflows (by simp [Representation.converted])
      | false => rfl
    unfold evalStringLiteral
    dsimp only
    exact run_bind_error (run_lift _ |>.trans (by rw [aggregateElements_error outside]))
  | overflow => exact absurd isKind notOverflow
  | _ =>
    rw [isKind] at overflows
    exact absurd overflows (by simp [Representation.converted])

theorem convert_destroyed (destroyed : e.representation = .destroyed) :
    ∃ list, v = .simpleAggregate list ∧ evalStringLiteral type v lists = (.ok list, lists) ∧
      flistElements list lists = (.error .destroyedFlist, lists) := by
  unfold Describes at describes
  rw [destroyed] at describes
  obtain ⟨list, rfl, isList⟩ := describes
  exact ⟨list, rfl, rfl, run_flistElements_destroyed isList⟩

theorem Describes.of_overflow (overflow : e.representation = .overflow) :
    v = .overflowLiteral := by
  unfold Describes at describes
  rw [overflow] at describes
  exact describes

theorem Describes.ne_overflow (notOverflow : e.representation ≠ .overflow) :
    v ≠ .overflowLiteral := by
  unfold Describes at describes
  split at describes
  · rw [describes.1]
    exact Value.noConfusion
  · obtain ⟨aggr, -, rfl⟩ := describes
    exact Value.noConfusion
  · obtain ⟨list, rfl, -⟩ := describes
    exact Value.noConfusion
  · obtain ⟨list, rfl, -⟩ := describes
    exact Value.noConfusion
  · exact absurd ‹_› notOverflow

end

theorem Representation.converted_cases (r : Representation) : r.converted = .overflow ∨ r.converted = .list := by
  cases r with
  | aggregate converts => cases converts <;> simp [converted]
  | _ => simp [converted]

/-- The evaluation returns a value of the expression. -/
def Succeeds (type : ElementType) (e : Expr) (x : Eval Value) (lists : Flists) : Prop :=
  ∃ v lists', x lists = (.ok v, lists') ∧ Keeps lists lists' ∧ Describes type e lists' v

/-- The evaluation ends with an exception. -/
def Fails (x : Eval Value) (lists : Flists) : Prop := ∃ failure lists', x lists = (.error failure, lists')

theorem Succeeds.overflow {x : Eval Value} (lists' : Flists) (run : x lists = (.ok .overflowLiteral, lists'))
    (keeps : Keeps lists lists') (isOverflow : e.representation = .overflow) : Succeeds type e x lists := by
  refine ⟨_, lists', run, keeps, ?_⟩
  unfold Describes
  rw [isOverflow]

theorem Succeeds.list {x : Eval Value} (list : Nat) (lists' : Flists) (run : x lists = (.ok (.simpleAggregate list), lists'))
    (keeps : Keeps lists lists') (isList : e.representation = .list)
    (elements : lists'[list]? = some (some (e.literals type))) : Succeeds type e x lists := by
  refine ⟨_, lists', run, keeps, ?_⟩
  unfold Describes
  rw [isList]
  exact ⟨list, rfl, elements⟩

end Ghdl.Evaluation
