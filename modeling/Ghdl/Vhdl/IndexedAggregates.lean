import Ghdl.Vhdl.Aggregates

/-!
# Indexed static aggregates

An element of an aggregate is found by a search in the choices of each dimension. The search stops at the choice for the
index, which is the one whose expression the vector of the choices has at the offset of the index. It expects a type
where a range is given, so that the first range choice that it comes to is an internal error.
-/

namespace Ghdl.Evaluation

open Fallible

/-- What an index is checked against: a discrete subtype or enumeration type, an integer type, or a range. -/
inductive Bound
  | subtypeDefinition (range : Range)
  | integerTypeDefinition
  | rangeExpression (range : Range)
deriving DecidableEq, Repr

/-- `Eval_Int_In_Range`. -/
def evalIntInRange (val : Int) (range : Range) : Bool :=
  match range.direction with
  | .iirTo => if val < range.left ∨ val > range.right then false else true
  | .iirDownto => if val > range.left ∨ val < range.right then false else true

/-- `Eval_Is_In_Bound`, for the position of a static discrete value. -/
def evalIsInBound (val : Int) : Bound → Except Failure Bool
  | .subtypeDefinition range => .ok (evalIntInRange val range)
  | .integerTypeDefinition => .ok true
  | .rangeExpression _ => .error .internalError

/-- An expression in an array aggregate: an element, or what gives the elements for the other dimensions. -/
inductive AggregateExpr (α : Type)
  | element (expr : α)
  | stringLiteral8 (els : List α)
  | aggregate (choices : List (Choice × AggregateExpr α))

variable {α β : Type}

/-- `Cur_Pos` for the next positional choice. -/
def Direction.next (direction : Direction) (curPos : Int) : Int :=
  match direction with
  | .iirTo => curPos + 1
  | .iirDownto => curPos - 1

/-- The loop of `Eval_Indexed_Aggregate` for one dimension, up to the choice where it exits. -/
def findChoice (aggrBounds : Range) (idx : Int) : List (Choice × β) → Int → Except Failure β
  | [], _ => .error .internalError
  | (.byNone, expr) :: rest, curPos =>
    if curPos = idx then .ok expr else findChoice aggrBounds idx rest (aggrBounds.direction.next curPos)
  | (.byExpression pos, expr) :: rest, curPos =>
    if pos = idx then .ok expr else findChoice aggrBounds idx rest curPos
  | (.byRange rng, expr) :: rest, curPos => do
    if ← evalIsInBound idx (.rangeExpression rng) then return expr else findChoice aggrBounds idx rest curPos
  | (.byOthers, expr) :: _, _ => .ok expr

/-- `Eval_Indexed_Aggregate`, with the bounds and the index for each dimension. -/
def evalIndexedAggregate : List (Range × Int) → AggregateExpr α → Except Failure (AggregateExpr α)
  | [], aggr => .ok aggr
  | (aggrBounds, idx) :: dims, .aggregate choices => do
    let aggr ← findChoice aggrBounds idx choices aggrBounds.left
    evalIndexedAggregate dims aggr
  -- There are no choices in a string literal.
  | _ :: _, .stringLiteral8 _ | _ :: _, .element _ => .error .assertion

/-- The expression associated with an index in each dimension. -/
def associated : List (Range × Int) → AggregateExpr α → Option (AggregateExpr α)
  | [], aggr => some aggr
  | (bounds, idx) :: dims, .aggregate choices => do
    let offset ← (bounds.posInRange idx).toOption
    let aggr ← chosen bounds choices offset
    associated dims aggr
  | [(bounds, idx)], .stringLiteral8 els => do
    let offset ← (bounds.posInRange idx).toOption
    let expr ← els[offset]?
    return .element expr
  | _, _ => none

/-- An aggregate that is analysed, with its index ranges. -/
inductive Analyzed : List Range → AggregateExpr α → Prop
  | element (expr : α) : Analyzed [] (.element expr)
  | stringLiteral8 (bounds : Range) (els : List α) (length : els.length = bounds.length) :
    Analyzed [bounds] (.stringLiteral8 els)
  | aggregate (bounds : Range) (dims : List Range) (choices : List (Choice × AggregateExpr α))
      (legal : LegalChoices bounds choices) (exprs : ∀ c ∈ choices, Analyzed dims c.2) :
    Analyzed (bounds :: dims) (.aggregate choices)

def Choice.isRange : Choice → Bool
  | .byRange _ => true
  | _ => false

/-- The first choice that is a range or covers the element with this offset, with its place. -/
def firstMet (bounds : Range) (offset : Nat) (choices : List (Choice × β)) : Option ((Choice × β) × Nat) :=
  choices.zipIdx.find? fun c => c.1.1.isRange || c.1.1.Covers bounds c.2 offset

/-- The search meets no range choice and no string literal: in each dimension, the first choice that is a range or covers
the index is no range. -/
def MeetsNoRange : List (Range × Int) → AggregateExpr α → Prop
  | [], _ => True
  | (bounds, idx) :: dims, .aggregate choices =>
    ∃ offset c, bounds.posInRange idx = .ok offset ∧ firstMet bounds offset choices = some c ∧
      c.1.1.isRange = false ∧ MeetsNoRange dims c.1.2
  | _ :: _, .stringLiteral8 _ | _ :: _, .element _ => False

variable {bounds : Range} {idx curPos : Int} {offset place : Nat} {choices rest : List (Choice × β)}

theorem Range.index_zero : bounds.index 0 = bounds.left := by
  unfold Range.index
  split
  · exact Int.add_zero bounds.left
  · exact Int.sub_zero bounds.left

theorem Direction.next_index : bounds.direction.next (bounds.index place) = bounds.index (place + 1) := by
  unfold Direction.next Range.index
  cases bounds.direction with
  | iirTo | iirDownto =>
    dsimp only
    omega

/-- The position of the next positional choice, when all the choices are positional or for the others. -/
def Positional (bounds : Range) (rest : List (Choice × β)) (place : Nat) (curPos : Int) : Prop :=
  (∃ c ∈ rest, c.1 = .byNone) → curPos = bounds.index place ∧ ∀ c ∈ rest, c.1 = .byNone ∨ c.1 = .byOthers

theorem Positional.tail {c : Choice × β} (positional : Positional bounds (c :: rest) place curPos) (named : c.1 ≠ .byNone)
    (notOthers : c.1 ≠ .byOthers) : Positional bounds rest (place + 1) curPos := by
  intro ⟨d, inside, isNone⟩
  have all := (positional ⟨d, List.mem_cons_of_mem c inside, isNone⟩).2
  rcases all c List.mem_cons_self with isNone | isOthers
  · exact absurd isNone named
  · exact absurd isOthers notOthers

theorem findChoice_eq (isIndex : bounds.index offset = idx) (positional : Positional bounds rest place curPos) :
    findChoice bounds idx rest curPos =
      match (rest.zipIdx place).find? fun c => c.1.1.isRange || c.1.1.Covers bounds c.2 offset with
      | some c => if c.1.1.isRange then .error .internalError else .ok c.1.2
      | none => .error .internalError := by
  induction rest generalizing place curPos with
  | nil => rfl
  | cons c rest ih =>
    obtain ⟨choice, expr⟩ := c
    rw [List.zipIdx_cons, List.find?_cons]
    cases choice with
    | byNone =>
      obtain ⟨isPos, all⟩ := positional ⟨(.byNone, expr), List.mem_cons_self, rfl⟩
      unfold findChoice
      by_cases here : place = offset
      · have covers : Choice.byNone.Covers bounds place offset := here
        rw [if_pos (by rw [isPos, here, isIndex])]
        simp only [Choice.isRange, covers, decide_true, Bool.or_true, Bool.false_eq_true, if_false]
      have misses : ¬ Choice.byNone.Covers bounds place offset := here
      rw [if_neg fun same => here (bounds.index_inj (by rw [← isPos, same, isIndex]))]
      simp only [Choice.isRange, misses, decide_false, Bool.or_false]
      apply ih
      intro _
      refine ⟨?_, fun d inside => all d (List.mem_cons_of_mem _ inside)⟩
      rw [isPos, Direction.next_index]
    | byExpression pos =>
      unfold findChoice
      by_cases here : pos = idx
      · have covers : (Choice.byExpression pos).Covers bounds place offset := here.trans isIndex.symm
        rw [if_pos here]
        simp only [Choice.isRange, covers, decide_true, Bool.or_true, Bool.false_eq_true, if_false]
      · have misses : ¬ (Choice.byExpression pos).Covers bounds place offset := fun same => here (same.trans isIndex)
        rw [if_neg here]
        simp only [Choice.isRange, misses, decide_false, Bool.or_false]
        exact ih (positional.tail (by simp) (by simp))
    | byRange rng => rfl
    | byOthers =>
      have covers : Choice.byOthers.Covers bounds place offset := trivial
      simp only [Choice.isRange, covers, decide_true, Bool.or_true, Bool.false_eq_true, if_false]
      rfl

theorem LegalChoices.positional_start (legal : LegalChoices bounds choices) : Positional bounds choices 0 bounds.left := by
  intro ⟨c, inside, isNone⟩
  exact ⟨bounds.index_zero.symm, legal.positional c inside isNone⟩

theorem findChoice_firstMet (legal : LegalChoices bounds choices) (isIndex : bounds.index offset = idx) :
    findChoice bounds idx choices bounds.left =
      match firstMet bounds offset choices with
      | some c => if c.1.1.isRange then .error .internalError else .ok c.1.2
      | none => .error .internalError := findChoice_eq isIndex legal.positional_start

theorem chosen_of_firstMet {c : (Choice × β) × Nat} (met : firstMet bounds offset choices = some c)
    (noRange : c.1.1.isRange = false) : chosen bounds choices offset = some c.1.2 := by
  obtain ⟨holds, before, after, shape, others⟩ := List.find?_eq_some_iff_append.mp met
  rw [noRange, Bool.false_or] at holds
  have found : (choices.zipIdx.find? fun c => decide (c.1.1.Covers bounds c.2 offset)) = some c := by
    refine List.find?_eq_some_iff_append.mpr ⟨holds, before, after, shape, fun d inside => ?_⟩
    have neither := others d inside
    rw [Bool.not_or, Bool.and_eq_true] at neither
    exact neither.2
  unfold chosen
  rw [found]
  rfl

theorem buildArrayChoicesVector_get {expr : β} (legal : LegalChoices bounds choices) (inside : bounds.Contains idx)
    (isOffset : bounds.posInRange idx = .ok offset) (isChosen : chosen bounds choices offset = some expr) :
    ∃ vect, buildArrayChoicesVector bounds choices = .ok vect ∧ vect[offset]? = some (some expr) := by
  obtain ⟨offset', less, isOffset', -⟩ := bounds.posInRange_of_contains inside
  obtain rfl : offset' = offset := Except.ok.inj (isOffset'.symm.trans isOffset)
  have starts : ∀ rng e, (.byRange rng, e) ∈ choices → ∃ start, bounds.posInRange (bounds.rngStart rng) = .ok start := by
    intro rng e member
    have some : rng.length ≠ 0 := by
      intro null
      obtain ⟨place, c, isPlace, covers⟩ := legal.total offset' less
      rw [legal.null rng e member null] at isPlace
      obtain rfl : c = (.byRange rng, e) := List.mem_singleton.mp (List.mem_of_getElem? isPlace)
      exact rng.not_contains_of_null null covers
    obtain ⟨left, right⟩ := legal.ranges rng e member some
    obtain ⟨start, isStart, -⟩ := bounds.posInRange_start some left right
    exact ⟨start, isStart⟩
  refine ⟨vector bounds choices, buildArrayChoicesVector_eq legal starts, ?_⟩
  unfold vector
  rw [List.getElem?_map, List.getElem?_range less, Option.map_some, isChosen]

variable {dims : List (Range × Int)} {aggr : AggregateExpr α}

theorem associated_cons {choices : List (Choice × AggregateExpr α)} (isOffset : bounds.posInRange idx = .ok offset) :
    associated ((bounds, idx) :: dims) (.aggregate choices) = (chosen bounds choices offset).bind (associated dims) := by
  simp only [associated, isOffset]
  rfl

theorem evalIndexedAggregate_ok (meets : MeetsNoRange dims aggr) (analyzed : Analyzed (dims.map Prod.fst) aggr)
    (inside : ∀ d ∈ dims, d.1.Contains d.2) :
    ∃ expr, evalIndexedAggregate dims aggr = .ok expr ∧ associated dims aggr = some expr := by
  induction dims generalizing aggr with
  | nil =>
    unfold evalIndexedAggregate associated
    exact ⟨aggr, rfl, rfl⟩
  | cons d dims ih =>
    obtain ⟨bounds, idx⟩ := d
    rw [List.map_cons] at analyzed
    generalize isRanges : dims.map Prod.fst = ranges at analyzed
    cases analyzed with
    | stringLiteral8 _ els length => exact meets.elim
    | aggregate _ _ choices legal exprs =>
      subst isRanges
      obtain ⟨offset, c, isOffset, met, noRange, meets⟩ := meets
      obtain ⟨offset', -, isOffset', isIndex⟩ := bounds.posInRange_of_contains (inside _ List.mem_cons_self)
      obtain rfl : offset' = offset := Except.ok.inj (isOffset'.symm.trans isOffset)
      have member : c.1 ∈ choices := List.fst_mem_of_mem_zipIdx (List.mem_of_find?_eq_some met)
      obtain ⟨expr, run, isExpr⟩ := ih meets (exprs c.1 member) fun d inDims => inside d (List.mem_cons_of_mem _ inDims)
      refine ⟨expr, ?_, ?_⟩
      · unfold evalIndexedAggregate
        rw [findChoice_firstMet legal isIndex, met]
        dsimp only
        rw [noRange]
        exact run
      · rw [associated_cons isOffset, chosen_of_firstMet met noRange]
        exact isExpr

theorem meetsNoRange_of_ok {expr : AggregateExpr α} (run : evalIndexedAggregate dims aggr = .ok expr)
    (analyzed : Analyzed (dims.map Prod.fst) aggr) (inside : ∀ d ∈ dims, d.1.Contains d.2) : MeetsNoRange dims aggr := by
  induction dims generalizing aggr with
  | nil => trivial
  | cons d dims ih =>
    obtain ⟨bounds, idx⟩ := d
    rw [List.map_cons] at analyzed
    generalize isRanges : dims.map Prod.fst = ranges at analyzed
    cases analyzed with
    | stringLiteral8 _ els length => cases run
    | aggregate _ _ choices legal exprs =>
      subst isRanges
      obtain ⟨offset, -, isOffset, isIndex⟩ := bounds.posInRange_of_contains (inside _ List.mem_cons_self)
      obtain ⟨found, search, run⟩ := bind_ok.mp run
      rw [findChoice_firstMet legal isIndex] at search
      cases met : firstMet bounds offset choices with
      | none =>
        rw [met] at search
        cases search
      | some c =>
        rw [met] at search
        dsimp only at search
        have member : c.1 ∈ choices := List.fst_mem_of_mem_zipIdx (List.mem_of_find?_eq_some met)
        cases isRange : c.1.1.isRange with
        | true =>
          rw [isRange] at search
          cases search
        | false =>
          rw [isRange] at search
          obtain rfl : c.1.2 = found := Except.ok.inj search
          exact ⟨offset, c, isOffset, met, isRange,
            ih run (exprs c.1 member) fun d inDims => inside d (List.mem_cons_of_mem _ inDims)⟩

theorem LegalChoices.expression_others {index : Int} (inside : bounds.Contains index) (expr other : β) :
    LegalChoices bounds [(.byExpression index, expr), (.byOthers, other)] := by
  have at_place : ∀ (place : Nat) (c : Choice × β),
      [(Choice.byExpression index, expr), (Choice.byOthers, other)][place]? = some c →
        place = 0 ∧ c = (.byExpression index, expr) ∨ place = 1 ∧ c = (.byOthers, other) := by
    intro place c isPlace
    match place, isPlace with
    | 0, isPlace => exact Or.inl ⟨rfl, (Option.some.inj isPlace).symm⟩
    | 1, isPlace => exact Or.inr ⟨rfl, (Option.some.inj isPlace).symm⟩
  constructor
  · simp
  · intro place e isPlace
    rcases at_place place _ isPlace with ⟨-, same⟩ | ⟨-, same⟩ <;> cases same
  · intro pos e member
    rcases List.mem_pair.mp member with same | same
    · cases same
      exact inside
    · cases same
  · simp
  · simp
  · intro place e isPlace
    rcases at_place place _ isPlace with ⟨-, same⟩ | ⟨rfl, -⟩
    · cases same
    · rfl
  · intro place place' c c' offset isPlace isPlace' named named' _ _ _
    rcases at_place place c isPlace with ⟨rfl, -⟩ | ⟨-, rfl⟩
    · rcases at_place place' c' isPlace' with ⟨rfl, -⟩ | ⟨-, rfl⟩
      · rfl
      · exact absurd rfl named'
    · exact absurd rfl named
  · intro offset _
    exact ⟨1, (.byOthers, other), rfl, trivial⟩

theorem LegalChoices.whole_range (bounds : Range) (expr : β) : LegalChoices bounds [(.byRange bounds, expr)] := by
  have at_place : ∀ (place : Nat) (c : Choice × β),
      [(Choice.byRange bounds, expr)][place]? = some c → place = 0 ∧ c = (.byRange bounds, expr) := by
    intro place c isPlace
    match place, isPlace with
    | 0, isPlace => exact ⟨rfl, (Option.some.inj isPlace).symm⟩
  constructor
  · simp
  · intro place e isPlace
    cases (at_place place _ isPlace).2
  · simp
  · intro rng e member some
    cases List.mem_singleton.mp member
    have ends := bounds.length_of_some some
    unfold Range.Contains
    cases way : bounds.direction with
    | iirTo | iirDownto =>
      simp only [way] at ends ⊢
      omega
  · intro rng e member _
    rw [List.mem_singleton.mp member]
  · intro place e isPlace
    cases (at_place place _ isPlace).2
  · intro place place' c c' offset isPlace isPlace' _ _ _ _ _
    rw [(at_place place c isPlace).1, (at_place place' c' isPlace').1]
  · intro offset inside
    refine ⟨0, (.byRange bounds, expr), rfl, ?_⟩
    have ends := bounds.length_of_some (by omega)
    show bounds.Contains (bounds.index offset)
    unfold Range.Contains Range.index
    cases way : bounds.direction with
    | iirTo | iirDownto =>
      simp only [way] at ends ⊢
      omega

end Ghdl.Evaluation
