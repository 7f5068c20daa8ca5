import Ghdl.System.Fallible
import Ghdl.Vhdl.Evaluation

/-!
# Elements of aggregates

Each choice of a legal aggregate sets the elements that it covers, and these were not set before; the last one, for the
others, sets the rest. So the vector of the choices holds the expression of the covering choice for each element. Only
a null range may start before the index range, and then its position is no index.
-/

namespace Ghdl.Evaluation

open Fallible

variable {α : Type}

/-- The expression of the first choice that covers an element. -/
def chosen (range : Range) (choices : List (Choice × α)) (offset : Nat) : Option α :=
  (choices.zipIdx.find? fun c => c.1.1.Covers range c.2 offset).map fun c => c.1.2

/-- The elements that the choices give. -/
def Aggregate.elements (aggr : Aggregate) : List Bool :=
  (List.range aggr.range.length).map fun offset => (chosen aggr.range aggr.choices offset).getD false

/-- The first bound of every range choice is not before the index range. -/
def Aggregate.converts (aggr : Aggregate) : Bool :=
  aggr.choices.all fun c =>
    match c.1 with
    | .byRange rng => (aggr.range.posInRange (aggr.range.rngStart rng)).isOk
    | _ => true

variable {range rng : Range} {choices before : List (Choice × α)} {c : Choice × α} {index : Int} {offset : Nat}

theorem Range.posInRange_of_contains (inside : range.Contains index) :
    ∃ offset < range.length, range.posInRange index = .ok offset ∧ range.index offset = index := by
  obtain ⟨direction, left, right⟩ := range
  unfold Range.Contains at inside
  cases direction with
  | iirTo =>
    dsimp only at inside
    refine ⟨(index - left).toNat, ?_, ?_, ?_⟩
    · simp only [Range.length]
      split <;> omega
    · simp only [Range.posInRange]
      exact if_neg (by omega)
    · simp only [Range.index]
      omega
  | iirDownto =>
    dsimp only at inside
    refine ⟨(left - index).toNat, ?_, ?_, ?_⟩
    · simp only [Range.length]
      split <;> omega
    · simp only [Range.posInRange]
      exact if_neg (by omega)
    · simp only [Range.index]
      omega

theorem Range.posInRange_error {e : Failure} (failed : range.posInRange index = .error e) : e = .constraintError := by
  have only : ∀ offset : Int, (if offset < 0 then .error .constraintError else .ok offset.toNat) =
      (.error e : Except Failure Nat) → e = .constraintError := by
    intro offset failed
    split at failed
    · exact (Except.error.inj failed).symm
    · exact absurd failed (by simp)
  exact only _ failed

theorem Range.index_inj {offset' : Nat} (same : range.index offset = range.index offset') : offset = offset' := by
  obtain ⟨direction, left, right⟩ := range
  cases direction <;> simp only [Range.index] at same <;> omega

theorem Range.not_contains_of_null (null : range.length = 0) : ¬ range.Contains index := by
  intro inside
  obtain ⟨offset, less, -⟩ := range.posInRange_of_contains inside
  omega

theorem Range.length_of_some (some : range.length ≠ 0) :
    match range.direction with
    | .iirTo => range.left ≤ range.right ∧ (range.length : Int) = range.right - range.left + 1
    | .iirDownto => range.right ≤ range.left ∧ (range.length : Int) = range.left - range.right + 1 := by
  obtain ⟨direction, left, right⟩ := range
  unfold Range.length at some ⊢
  cases direction with
  | iirTo | iirDownto =>
    dsimp only at some ⊢
    split at some
    · exact absurd rfl some
    · rw [if_neg ‹_›]
      omega

theorem Range.length_of_contains (inside : range.Contains index) :
    match range.direction with
    | .iirTo => range.left ≤ range.right ∧ (range.length : Int) = range.right - range.left + 1
    | .iirDownto => range.right ≤ range.left ∧ (range.length : Int) = range.left - range.right + 1 :=
  range.length_of_some fun null => range.not_contains_of_null null inside

theorem Range.posInRange_start (some : rng.length ≠ 0) (left : range.Contains rng.left) (right : range.Contains rng.right) :
    ∃ start, range.posInRange (range.rngStart rng) = .ok start ∧ start + rng.length ≤ range.length ∧
      ∀ offset, rng.Contains (range.index offset) ↔ start ≤ offset ∧ offset < start + rng.length := by
  have first : range.Contains (range.rngStart rng) := by
    unfold Range.rngStart
    split
    · exact left
    · exact right
  obtain ⟨start, -, isStart, same⟩ := range.posInRange_of_contains first
  refine ⟨start, isStart, ?_⟩
  have whole := range.length_of_contains left
  have part := rng.length_of_some some
  obtain ⟨direction, l, r⟩ := range
  obtain ⟨direction', l', r'⟩ := rng
  cases direction <;> cases direction' <;>
    simp only [Range.Contains, Range.index, Range.rngStart, reduceCtorEq, if_true, if_false] at * <;>
    refine ⟨by omega, fun offset => by omega⟩

theorem chosen_concat : chosen range (before ++ [c]) offset =
      (chosen range before offset).or (if c.1.Covers range before.length offset then some c.2 else none) := by
  unfold chosen
  rw [List.zipIdx_append, List.find?_append]
  simp only [List.zipIdx_cons, List.zipIdx_nil, Nat.zero_add, List.find?_cons, List.find?_nil]
  cases (List.find? (fun c => decide (c.1.1.Covers range c.2 offset)) before.zipIdx) with
  | some d => rfl
  | none => by_cases covers : c.1.Covers range before.length offset <;> simp [covers]

theorem exists_of_chosen {b : α} (isChosen : chosen range choices offset = some b) :
    ∃ (place : Nat) (c : Choice × α), choices[place]? = some c ∧ c.1.Covers range place offset := by
  unfold chosen at isChosen
  obtain ⟨⟨c, place⟩, found, -⟩ := Option.map_eq_some_iff.mp isChosen
  have inside := List.mem_of_find?_eq_some found
  have covers := List.find?_some found
  exact ⟨place, c, List.mem_zipIdx_iff_getElem?.mp inside, of_decide_eq_true covers⟩

theorem exists_chosen (legal : LegalChoices range choices) (inside : offset < range.length) :
    ∃ b, chosen range choices offset = some b := by
  obtain ⟨place, c, isPlace, covers⟩ := legal.total offset inside
  unfold chosen
  cases found : choices.zipIdx.find? fun c => c.1.1.Covers range c.2 offset with
  | some d => exact ⟨d.1.2, rfl⟩
  | none =>
    have missed := List.find?_eq_none.mp found (c, place) (List.mem_zipIdx_iff_getElem?.mpr isPlace)
    exact absurd covers (by simpa using missed)

variable {rest : List (Choice × α)}

theorem chosen_eq_none (legal : LegalChoices range (before ++ c :: rest))
    (inside : offset < range.length) (notOthers : c.1 ≠ .byOthers) (covers : c.1.Covers range before.length offset) :
    chosen range before offset = none := by
  apply Classical.byContradiction
  intro isSome
  obtain ⟨b, isChosen⟩ := Option.ne_none_iff_exists'.mp isSome
  obtain ⟨place, d, isPlace, covers'⟩ := exists_of_chosen isChosen
  have less : place < before.length := (List.getElem?_eq_some_iff.mp isPlace).1
  have isPlace' : (before ++ c :: rest)[place]? = some d := by
    rw [List.getElem?_append_left less]
    exact isPlace
  have here : (before ++ c :: rest)[before.length]? = some c := by simp
  have notOthers' : d.1 ≠ .byOthers := by
    intro isOthers
    have last := legal.others place d.2 (by rw [isPlace', ← isOthers])
    rw [List.length_append, List.length_cons] at last
    omega
  have same := legal.unique place before.length d c offset isPlace' here notOthers' notOthers inside covers' covers
  omega

/-- The vector that some choices give. -/
def vector (range : Range) (choices : List (Choice × α)) : List (Option α) :=
  (List.range range.length).map (chosen range choices)

theorem setVect_map {n pos : Nat} (f : Nat → Option α) (expr : α) (inside : pos < n) :
    setVect ((List.range n).map f) pos expr = .ok ((List.range n).map fun k => if k = pos then some expr else f k) := by
  unfold setVect
  rw [if_pos (by simpa using inside)]
  congr 1
  apply List.ext_getElem?
  intro k
  by_cases same : pos = k
  · subst same
    simp [inside]
  have other : k ≠ pos := fun here => same here.symm
  simp only [List.getElem?_set, same, if_false, List.getElem?_map]
  cases isElement : (List.range n)[k]? with
  | none => rfl
  | some j =>
    have isIndex : j = k := by
      obtain ⟨_, value⟩ := List.getElem?_eq_some_iff.mp isElement
      rw [← value, List.getElem_range]
    simp [isIndex, other]

theorem fill_map {n start : Nat} (f : Nat → Option α) (expr : α) (count : Nat) (inside : start + count ≤ n) :
    (List.range count).foldlM (fun state _ => setNext expr state) ((List.range n).map f, start) =
      .ok ((List.range n).map fun k => if start ≤ k ∧ k < start + count then some expr else f k, start + count) := by
  induction count with
  | zero =>
    have same : (fun k => if start ≤ k ∧ k < start + 0 then some expr else f k) = f := by
      funext k
      exact if_neg (by omega)
    rw [same]
    rfl
  | succ count ih =>
    rw [List.range_succ, List.foldlM_append, ih (by omega)]
    show (setNext expr _ >>= _) = _
    unfold setNext
    rw [setVect_map _ expr (by omega)]
    show Except.ok _ = Except.ok _
    have same : (fun k => if k = start + count then some expr else if start ≤ k ∧ k < start + count then some expr else f k) =
        fun k => if start ≤ k ∧ k < start + (count + 1) then some expr else f k := by
      funext k
      by_cases here : k = start + count
      · rw [if_pos here, if_pos (by omega)]
      · rw [if_neg here]
        by_cases before : start ≤ k ∧ k < start + count
        · rw [if_pos before, if_pos (by omega)]
        · rw [if_neg before, if_neg (by omega)]
    rw [same]
    rfl

theorem vector_concat (legal : LegalChoices range (before ++ c :: rest))
    (notOthers : c.1 ≠ .byOthers) {p : Nat → Prop} [DecidablePred p]
    (covers : ∀ offset < range.length, c.1.Covers range before.length offset ↔ p offset) :
    (List.range range.length).map (fun k => if p k then some c.2 else chosen range before k) = vector range (before ++ [c]) := by
  apply List.map_congr_left
  intro k inRange
  have inside := List.mem_range.mp inRange
  rw [chosen_concat]
  by_cases isCovered : c.1.Covers range before.length k
  · rw [if_pos ((covers k inside).mp isCovered), if_pos isCovered, chosen_eq_none legal inside notOthers isCovered]
    rfl
  · rw [if_neg fun holds => isCovered ((covers k inside).mpr holds), if_neg isCovered, Option.or_none]

theorem chooseVect_legal {curPos : Nat} (legal : LegalChoices range (before ++ c :: rest))
    (starts : ∀ rng, c.1 = .byRange rng → ∃ start, range.posInRange (range.rngStart rng) = .ok start)
    (place : (∀ d ∈ before, d.1 = .byNone) → curPos = before.length) :
    ∃ curPos', chooseVect range (vector range before, curPos) c = .ok (vector range (before ++ [c]), curPos') ∧
      ((∀ d ∈ before ++ [c], d.1 = .byNone) → curPos' = (before ++ [c]).length) := by
  obtain ⟨choice, expr⟩ := c
  have here : (before ++ (choice, expr) :: rest)[before.length]? = some (choice, expr) := by simp
  have inChoices : (choice, expr) ∈ before ++ (choice, expr) :: rest := List.mem_append_right _ List.mem_cons_self
  have mixed : choice ≠ .byNone → ¬ ∀ d ∈ before ++ [(choice, expr)], d.1 = .byNone := fun other all =>
    other (all (choice, expr) (by simp))
  cases choice with
  | byNone =>
    have positional := legal.positional (.byNone, expr) inChoices rfl
    have allNone : ∀ d ∈ before, d.1 = .byNone := by
      intro d inBefore
      rcases positional d (List.mem_append_left _ inBefore) with isNone | isOthers
      · exact isNone
      obtain ⟨n, isAt⟩ := List.getElem?_of_mem inBefore
      have less := (List.getElem?_eq_some_iff.mp isAt).1
      have last := legal.others n d.2 (by rw [List.getElem?_append_left less, isAt, ← isOthers])
      rw [List.length_append, List.length_cons] at last
      omega
    have isPlace := place allNone
    have inside := legal.places before.length expr here
    refine ⟨curPos + 1, ?_, fun _ => by rw [isPlace, List.length_append]; rfl⟩
    unfold chooseVect setNext vector
    dsimp only
    rw [isPlace, setVect_map _ expr inside]
    show Except.ok _ = Except.ok _
    rw [vector_concat legal (by simp) fun offset _ => eq_comm]
    rfl
  | byExpression pos =>
    obtain ⟨offset, inside, isOffset, isIndex⟩ := range.posInRange_of_contains (legal.expressions pos expr inChoices)
    refine ⟨offset, ?_, fun all => absurd all (mixed (by simp))⟩
    unfold chooseVect vector
    dsimp only
    rw [isOffset]
    show (do return (← setVect _ offset expr, offset)) = _
    rw [setVect_map _ expr inside]
    show Except.ok _ = Except.ok _
    rw [vector_concat legal (by simp) fun k _ => ?_]
    · rfl
    · show pos = range.index k ↔ k = offset
      rw [← isIndex]
      exact ⟨fun same => (range.index_inj same).symm, fun same => by rw [same]⟩
  | byRange rng =>
    by_cases null : rng.length = 0
    · have single := legal.null rng expr inChoices null
      obtain ⟨start, isStart⟩ := starts rng rfl
      have alone : before = [] := by
        have length := congrArg List.length single
        rw [List.length_append, List.length_cons, List.length_singleton] at length
        exact List.eq_nil_of_length_eq_zero (by omega)
      have nothing : range.length = 0 := by
        apply Nat.eq_zero_of_not_pos
        intro positive
        obtain ⟨n, d, isAt, covers⟩ := legal.total 0 positive
        rw [single] at isAt
        have isRange : d = (.byRange rng, expr) := List.mem_singleton.mp (List.mem_of_getElem? isAt)
        rw [isRange] at covers
        exact rng.not_contains_of_null null covers
      refine ⟨start, ?_, fun all => absurd all (mixed (by simp))⟩
      unfold chooseVect vector
      dsimp only
      rw [isStart, null, nothing]
      rfl
    · obtain ⟨left, right⟩ := legal.ranges rng expr inChoices null
      obtain ⟨start, isStart, inside, covers⟩ := range.posInRange_start null left right
      refine ⟨start + rng.length, ?_, fun all => absurd all (mixed (by simp))⟩
      unfold chooseVect vector
      dsimp only
      rw [isStart]
      show (List.range rng.length).foldlM _ _ = _
      rw [fill_map _ expr rng.length inside, vector_concat legal (by simp) fun k _ => covers k]
      rfl
  | byOthers =>
    refine ⟨curPos, ?_, fun all => absurd all (mixed (by simp))⟩
    unfold chooseVect vector
    dsimp only
    rw [List.map_map]
    congr 2
    apply List.map_congr_left
    intro k _
    have covers : (Choice.byOthers, expr).1.Covers range before.length k := trivial
    rw [chosen_concat, if_pos covers]
    rfl

theorem foldlM_chooseVect {curPos : Nat} (legal : LegalChoices range (before ++ rest))
    (starts : ∀ rng expr, (.byRange rng, expr) ∈ rest → ∃ start, range.posInRange (range.rngStart rng) = .ok start)
    (place : (∀ d ∈ before, d.1 = .byNone) → curPos = before.length) :
    ∃ curPos', rest.foldlM (chooseVect range) (vector range before, curPos) = .ok (vector range (before ++ rest), curPos') := by
  induction rest generalizing before curPos with
  | nil =>
    rw [List.append_nil]
    exact ⟨curPos, rfl⟩
  | cons c rest ih =>
    obtain ⟨curPos', step, place'⟩ := chooseVect_legal legal
      (fun rng isRange => starts rng c.2 (by rw [← isRange]; exact List.mem_cons_self)) place
    have shape : before ++ c :: rest = before ++ [c] ++ rest := by simp
    rw [shape] at legal ⊢
    obtain ⟨curPos'', others⟩ := ih legal (fun rng expr inside => starts rng expr (List.mem_cons_of_mem c inside)) place'
    exact ⟨curPos'', by rw [List.foldlM_cons, step]; exact others⟩

theorem buildArrayChoicesVector_eq (legal : LegalChoices range choices)
    (starts : ∀ rng expr, (.byRange rng, expr) ∈ choices → ∃ start, range.posInRange (range.rngStart rng) = .ok start) :
    buildArrayChoicesVector range choices = .ok (vector range choices) := by
  have whole : LegalChoices range ([] ++ choices) := legal
  have first : (∀ d ∈ ([] : List (Choice × α)), d.1 = .byNone) → 0 = ([] : List (Choice × α)).length := fun _ => rfl
  obtain ⟨curPos, run⟩ := foldlM_chooseVect whole starts first
  have empty : vector range ([] : List (Choice × α)) = List.replicate range.length none := by
    unfold vector
    rw [List.eq_replicate_iff]
    exact ⟨by simp, fun b inside => by obtain ⟨k, -, rfl⟩ := List.mem_map.mp inside; rfl⟩
  rw [empty] at run
  unfold buildArrayChoicesVector
  rw [run]
  rfl

/-- A range choice that starts before the index range, which is null, fails. -/
theorem buildArrayChoicesVector_error {expr : α} (legal : LegalChoices range choices)
    (inside : (.byRange rng, expr) ∈ choices) (before : ¬∃ start, range.posInRange (range.rngStart rng) = .ok start) :
    buildArrayChoicesVector range choices = .error .constraintError := by
  have null : rng.length = 0 := by
    apply Classical.byContradiction
    intro some
    obtain ⟨left, right⟩ := legal.ranges rng expr inside some
    obtain ⟨start, isStart, -⟩ := range.posInRange_start some left right
    exact before ⟨start, isStart⟩
  have failed : range.posInRange (range.rngStart rng) = .error .constraintError := by
    cases isStart : range.posInRange (range.rngStart rng) with
    | ok start => exact absurd ⟨start, isStart⟩ before
    | error e => rw [Range.posInRange_error isStart]
  unfold buildArrayChoicesVector
  rw [legal.null rng expr inside null, List.foldlM_cons]
  unfold chooseVect
  dsimp only
  rw [failed]
  rfl

variable {aggr : Aggregate}

theorem Aggregate.length_elements : aggr.elements.length = aggr.range.length := by
  unfold Aggregate.elements
  rw [List.length_map, List.length_range]

theorem aggregateElements_eq (converts : aggr.converts = true) :
    aggregateElements aggr.range aggr.choices = .ok aggr.elements := by
  have starts : ∀ rng expr, (.byRange rng, expr) ∈ aggr.choices →
      ∃ start, aggr.range.posInRange (aggr.range.rngStart rng) = .ok start := by
    intro rng expr inside
    have isOk := List.all_eq_true.mp converts _ inside
    dsimp only at isOk
    cases isStart : aggr.range.posInRange (aggr.range.rngStart rng) with
    | ok start => exact ⟨start, rfl⟩
    | error e =>
      rw [isStart] at isOk
      exact absurd isOk (by simp [Except.isOk, Except.toBool])
  unfold aggregateElements
  rw [buildArrayChoicesVector_eq aggr.legal starts]
  show (vector aggr.range aggr.choices).mapM _ = _
  unfold vector Aggregate.elements
  rw [List.mapM_map]
  apply mapM_ok
  intro offset inRange
  obtain ⟨b, isChosen⟩ := exists_chosen aggr.legal (List.mem_range.mp inRange)
  rw [Function.comp_apply, isChosen]
  rfl

theorem aggregateElements_error (outside : aggr.converts = false) :
    aggregateElements aggr.range aggr.choices = .error .constraintError := by
  obtain ⟨⟨choice, expr⟩, inside, notOk⟩ := List.all_eq_false.mp outside
  cases choice with
  | byRange rng =>
    unfold aggregateElements
    rw [buildArrayChoicesVector_error aggr.legal inside]
    · rfl
    rintro ⟨start, isStart⟩
    dsimp only at notOk
    rw [isStart] at notOk
    exact notOk rfl
  | _ => exact absurd rfl notOk

end Ghdl.Evaluation
