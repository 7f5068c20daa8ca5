import Ghdl.Vhdl.RangeValues
import Ghdl.Vhdl.ShiftOperators

/-!
# Comparison of arrays

`Eval_Array_Compare` compares the bytes of two string literals, and otherwise the lists of two simple aggregates;
`Compare_Value` of the interpreter compares the values of two arrays. The order is the lexicographic one of the
positions of the elements.
-/

namespace Ghdl.Evaluation

open Fallible ShiftOperators
open Simul (Discrete compareValue order)

/-- An enumeration type with its number of literals. -/
structure EnumType where
  size : Nat
  isBit : Bool
  two : isBit = true → size = 2
  bounded : size ≤ 2 ^ 31

/-- An operand: a string literal has the positions of its elements in the string table. -/
inductive EnumArray (t : EnumType)
  | stringLiteral8 (str : List {pos : Fin 256 // pos.1 < t.size})
  | aggregate (range : Range) (choices : List (Choice × Fin t.size)) (legal : LegalChoices range choices)
  | simpleAggregate (list : List (Fin t.size))

variable {t : EnumType}

namespace EnumArray

/-- The list of `Eval_String_Literal`. -/
def evalStringLiteral : EnumArray t → Except Failure (List (Fin t.size))
  | stringLiteral8 str => .ok (str.map fun pos => ⟨pos.1.1, pos.2⟩)
  | aggregate range choices _ => do
    let vect ← buildArrayChoicesVector range choices
    vect.mapM fun
      | some expr => .ok expr
      | none => .error .assertion
  | simpleAggregate list => .ok list

/-- The elements of the array. -/
def elements : EnumArray t → List (Fin t.size)
  | stringLiteral8 str => str.map fun pos => ⟨pos.1.1, pos.2⟩
  | aggregate range choices _ => (List.range range.length).filterMap (chosen range choices)
  | simpleAggregate list => list

/-- Their positions. -/
def positions (a : EnumArray t) : List Nat := a.elements.map (·.1)

/-- No range choice starts before the index range. -/
def Converts : EnumArray t → Prop
  | aggregate range choices _ => ∀ rng expr, (.byRange rng, expr) ∈ choices → ∃ start, range.posInRange (range.rngStart rng) = .ok start
  | _ => True

end EnumArray

/-- So many elements are compared, from an index on. -/
def compareLoop (compare : Nat → Except Failure Ordering) : Nat → Nat → Except Failure Ordering
  | 0, _ => .ok .eq
  | k + 1, p => do
    let res ← compare p
    if res ≠ .eq then return res else compareLoop compare k (p + 1)

/-- The elements that both arrays have are compared, from the index FIRST on, and then the lengths. -/
def compareFrom (compare : Nat → Except Failure Ordering) (first lLen rLen : Nat) : Except Failure Ordering := do
  let res ← compareLoop compare (min lLen rLen) first
  if res = .eq then return order lLen rLen else return res

/-- The general case of `Eval_Array_Compare`. -/
def compareLists (left right : EnumArray t) : Except Failure Ordering := do
  let lList ← left.evalStringLiteral
  let rList ← right.evalStringLiteral
  compareFrom (fun p => do .ok (order (← getNthElement lList p).1 (← getNthElement rList p).1)) 0 lList.length rList.length

/-- `Eval_Array_Compare`. -/
def evalArrayCompare : EnumArray t → EnumArray t → Except Failure Ordering
  | .stringLiteral8 l, .stringLiteral8 r =>
    compareFrom (fun p => do .ok (order (← getV l p).1.1 (← getV r p).1.1)) 1 l.length r.length
  | left, right => compareLists left right

/-- `Create_Enum_Value`, with the mode of the type. -/
def createEnumValue (t : EnumType) (pos : Fin t.size) : Discrete :=
  if t.isBit then .b1 (pos.1 = 1) else if t.size ≤ 256 then .e8 (.ofNat pos.1) else .e32 (.ofNat pos.1)

/-- `Compare_Value` of arrays with one dimension. -/
def compareArrays (left right : List Discrete) : Except Failure Ordering :=
  compareFrom (fun i => do compareValue (← getV left i) (← getV right i)) 1 left.length right.length

variable {left middle right : EnumArray t} {a b : Fin t.size}

theorem compareFrom_eq {α : Type} {compared : Nat → Except Failure Ordering} {position : α → Nat} {l r : List α} {first : Nat}
    (each : ∀ (p : Nat) (inL : p < l.length) (inR : p < r.length),
      compared (first + p) = .ok (compare (position l[p]) (position r[p]))) :
    compareFrom compared first l.length r.length = .ok (compare (l.map position) (r.map position)) := by
  induction l generalizing r first with
  | nil =>
    cases r with
    | nil | cons b r => rfl
  | cons a l ih =>
    cases r with
    | nil => rfl
    | cons b r =>
      have head := each 0 (Nat.succ_pos _) (Nat.succ_pos _)
      have tail := @ih r (first + 1) fun p inL inR => by
        rw [Nat.add_assoc, Nat.add_comm 1]
        exact each (p + 1) (Nat.succ_lt_succ inL) (Nat.succ_lt_succ inR)
      have lengths : order (l.length + 1) (r.length + 1) = order l.length r.length := by
        unfold order
        simp only [Nat.add_lt_add_iff_right, Nat.add_right_cancel_iff]
      unfold compareFrom at *
      rw [List.length_cons, List.length_cons, Nat.add_min_add_right, compareLoop, lengths, List.map_cons, List.map_cons,
        List.compare_cons_cons]
      rw [Nat.add_zero] at head
      rw [head]
      dsimp only [List.getElem_cons_zero]
      cases compare (position a) (position b) with
      | eq => exact tail
      | lt | gt => rfl

/-- The values of the interpreter have the order of the positions. -/
theorem compareValue_createEnumValue (t : EnumType) (a b : Fin t.size) :
    compareValue (createEnumValue t a) (createEnumValue t b) = .ok (compare a.1 b.1) := by
  have bounded := t.bounded
  have less := a.2
  have less' := b.2
  show _ = Except.ok (order a.1 b.1)
  unfold createEnumValue
  by_cases isBit : t.isBit = true
  · have two := t.two isBit
    rw [if_pos isBit, if_pos isBit]
    generalize a.1 = m, b.1 = n at *
    rcases (by omega : m = 0 ∨ m = 1) with rfl | rfl <;> rcases (by omega : n = 0 ∨ n = 1) with rfl | rfl <;> rfl
  rw [if_neg isBit, if_neg isBit]
  split
  all_goals
    apply congrArg Except.ok
    unfold order
    simp only [UInt8.lt_iff_toNat_lt, ← UInt8.toNat_inj, UInt8.toNat_ofNat', UInt32.lt_iff_toNat_lt, ← UInt32.toNat_inj, UInt32.toNat_ofNat']
    rw [Nat.mod_eq_of_lt (by omega), Nat.mod_eq_of_lt (by omega)]

theorem evalStringLiteral_eq (converts : left.Converts) : left.evalStringLiteral = .ok left.elements := by
  cases left with
  | stringLiteral8 | simpleAggregate => rfl
  | aggregate range choices legal =>
    unfold EnumArray.evalStringLiteral EnumArray.elements
    dsimp only
    rw [buildArrayChoicesVector_eq legal converts]
    unfold vector
    have all : ∀ offset ∈ List.range range.length, ∃ expr, chosen range choices offset = some expr :=
      fun offset inside => exists_chosen legal (List.mem_range.mp inside)
    generalize List.range range.length = offsets at all ⊢
    show List.mapM _ _ = _
    induction offsets with
    | nil => rfl
    | cons offset rest ih =>
      obtain ⟨expr, isChosen⟩ := all offset List.mem_cons_self
      have others := ih fun offset inside => all offset (List.mem_cons_of_mem _ inside)
      rw [List.map_cons, List.mapM_cons, others, isChosen, List.filterMap_cons_some isChosen]
      rfl

theorem evalStringLiteral_error (fails : ¬left.Converts) : left.evalStringLiteral = .error .constraintError := by
  cases left with
  | stringLiteral8 | simpleAggregate => exact absurd trivial fails
  | aggregate range choices legal =>
    obtain ⟨rng, fails⟩ := not_forall.mp fails
    obtain ⟨expr, fails⟩ := not_forall.mp fails
    obtain ⟨inside, before⟩ := not_forall.mp fails
    unfold EnumArray.evalStringLiteral
    dsimp only
    rw [buildArrayChoicesVector_error legal inside before]
    rfl

theorem compareLists_eq (convertsL : left.Converts) (convertsR : right.Converts) :
    compareLists left right = .ok (compare left.positions right.positions) := by
  unfold compareLists
  rw [evalStringLiteral_eq convertsL, evalStringLiteral_eq convertsR]
  apply compareFrom_eq
  intro p inL inR
  rw [Nat.zero_add, getNthElement_eq inL, getNthElement_eq inR]
  rfl

theorem compareArrays_eq (l r : List (Fin t.size)) :
    compareArrays (l.map (createEnumValue t)) (r.map (createEnumValue t)) = .ok (compare (l.map (·.1)) (r.map (·.1))) := by
  unfold compareArrays
  rw [List.length_map, List.length_map]
  apply compareFrom_eq
  intro p inL inR
  rw [Nat.add_comm, getV_eq (by simpa using inL), getV_eq (by simpa using inR), List.getElem_map, List.getElem_map]
  exact compareValue_createEnumValue t _ _

theorem evalArrayCompare_eq (convertsL : left.Converts) (convertsR : right.Converts) :
    evalArrayCompare left right = .ok (compare left.positions right.positions) := by
  have general := compareLists_eq convertsL convertsR
  cases left with
  | stringLiteral8 l =>
    cases right with
    | stringLiteral8 r =>
      unfold evalArrayCompare EnumArray.positions EnumArray.elements
      dsimp only
      rw [List.map_map, List.map_map]
      apply compareFrom_eq
      intro p inL inR
      rw [Nat.add_comm, getV_eq inL, getV_eq inR]
      rfl
    | _ => exact general
  | _ => exact general

/-- The comparisons of two arrays give the lexicographic order of the positions. -/
structure Compares (left right : EnumArray t) : Prop where
  eval : evalArrayCompare left right = .ok (compare left.positions right.positions)
  general : compareLists left right = .ok (compare left.positions right.positions)
  value : compareArrays (left.elements.map (createEnumValue t)) (right.elements.map (createEnumValue t)) =
    .ok (compare left.positions right.positions)

end Ghdl.Evaluation
