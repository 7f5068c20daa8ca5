import Ghdl.Synth.Gates

/-!
# Vectors of nets

`Vectorize_Array` gathers the nets of an array by at most four, in place, until a single net is left. In every pass
the nets that are gathered and those that are still to be gathered flatten to the elements of the array, so the last
net is their concatenation. Its width is computed with 32 bits.
-/

namespace Ghdl.Synth

namespace Netlist

/-- A sum of widths, which are `Uns32`. -/
def sumWidths (t : Netlist) (os : List Net) : Width := (os.map t.getWidth).sum % 2 ^ 32

/-- `Id_Concat2`, `Id_Concat3` and `Id_Concat4`, by the number of inputs. -/
def idConcat (nbrInputs : Nat) : ModuleId := .other (20 + nbrInputs)

/-- A concatenation of the nets. -/
def buildConcat (t : Netlist) (os : List Net) : Outcome (Net × Netlist) := do
  check (∀ o ∈ os, t.ValidNet o)
  t.buildGate (idConcat os.length) (t.sumWidths os) os []

/-- `Build_Concat2`. -/
def buildConcat2 (t : Netlist) (i0 i1 : Net) : Outcome (Net × Netlist) := t.buildConcat [i0, i1]

/-- `Build_Concat3`. -/
def buildConcat3 (t : Netlist) (i0 i1 i2 : Net) : Outcome (Net × Netlist) := t.buildConcat [i0, i1, i2]

/-- `Build_Concat4`. -/
def buildConcat4 (t : Netlist) (i0 i1 i2 i3 : Net) : Outcome (Net × Netlist) := t.buildConcat [i0, i1, i2, i3]

end Netlist

/-- `Arr (Idx)`. An index check fails as an assertion does. -/
def element (arr : List Net) (idx : Nat) : Outcome Net :=
  if idx = 0 then .error .assertion
  else
    match arr[idx - 1]? with
    | some o => .ok o
    | none => .error .assertion

/-- `Arr (Idx) := O`. -/
def setElement (arr : List Net) (idx : Nat) (o : Net) : Outcome (List Net) := do
  check (1 ≤ idx ∧ idx ≤ arr.length)
  return arr.set (idx - 1) o

/-- The net for the next elements of `Arr`, at most four, and the index after them. -/
def gather (arr : List Net) (len idx : Nat) (t : Netlist) : Outcome (Net × Netlist × Nat) :=
  if idx = len then do
    let o ← element arr idx
    return (o, t, idx + 1)
  else if idx + 1 = len then do
    let (o, t) ← t.buildConcat2 (← element arr idx) (← element arr (idx + 1))
    return (o, t, idx + 2)
  else if idx + 2 = len then do
    let (o, t) ← t.buildConcat3 (← element arr idx) (← element arr (idx + 1)) (← element arr (idx + 2))
    return (o, t, idx + 3)
  else do
    let (o, t) ← t.buildConcat4 (← element arr idx) (← element arr (idx + 1)) (← element arr (idx + 2))
      (← element arr (idx + 3))
    return (o, t, idx + 4)

/-- The loop of one pass, with `Idx` and `New_Idx`. -/
def gatherLoop (len : Nat) : Nat → Nat → Nat → List Net → Netlist → Outcome (Nat × List Net × Netlist)
  | 0, _, _, _, _ => .error .endless
  | fuel + 1, idx, newIdx, arr, t =>
    if idx ≤ len then do
      let (o, t, idx) ← gather arr len idx t
      let arr ← setElement arr (newIdx + 1) o
      gatherLoop len fuel idx (newIdx + 1) arr t
    else return (newIdx, arr, t)

/-- The passes over the first `Len` elements of `Arr`. -/
def vectorizeLoop : Nat → Nat → List Net → Netlist → Outcome (List Net × Netlist)
  | 0, _, _, _ => .error .endless
  | fuel + 1, len, arr, t =>
    if 1 < len then do
      let (newIdx, arr, t) ← gatherLoop len (len + 1) 1 0 arr t
      vectorizeLoop fuel newIdx arr t
    else return (arr, t)

/-- `Vectorize_Array`, for the nets of the elements. -/
def vectorizeArray (fuel : Nat) (v : List Net) (t : Netlist) : Outcome (Net × Netlist) := do
  let (arr, t) ← vectorizeLoop fuel v.length v t
  let o ← element arr 1
  return (o, t)

namespace Netlist

/-- The net is the output of a concatenation of others. -/
structure IsConcat (t : Netlist) (n : Net) (ins : List Net) : Prop where
  arity : 2 ≤ ins.length ∧ ins.length ≤ 4
  valid : t.ValidNet n
  klass : (t.instances (t.nets n).parent).klass = idConcat ins.length
  driver : ∀ k o, ins[k]? = some o → t.getDriver ((t.instances (t.nets n).parent).firstInput + k) = some o
  inputs : ∀ o ∈ ins, t.ValidNet o
  width : t.getWidth n = t.sumWidths ins

/-- The nets are those of a list, some of them concatenated by gates. -/
inductive Flattens (t : Netlist) : List Net → List Net → Prop
  | nil : Flattens t [] []
  | net {n : Net} {ms ns : List Net} (rest : Flattens t ms ns) : Flattens t (n :: ms) (n :: ns)
  | gate {n : Net} {ins ms ns : List Net} (isConcat : t.IsConcat n ins) (rest : Flattens t (ins ++ ms) ns) :
      Flattens t (n :: ms) ns

/-- The number whose bits are those of the values, the first one most significant. -/
def concatenated (width value : Net → Nat) (os : List Net) : Nat :=
  os.foldl (fun acc o => acc * 2 ^ width o + value o) 0

/-- Values of the nets that the concatenations allow. -/
def Respects (t : Netlist) (value : Net → Nat) : Prop :=
  ∀ n ins, t.IsConcat n ins → value n = concatenated t.getWidth value ins

/-- The net is the concatenation of the nets, each of them once and in order: by its gates, by its width, and by its
value whatever the values of the nets are. -/
structure Concatenates (t : Netlist) (n : Net) (os : List Net) : Prop where
  flattens : t.Flattens [n] os
  width : t.getWidth n = (os.map t.getWidth).sum
  value : ∀ value, t.Respects value → value n = concatenated t.getWidth value os

variable {t t' : Netlist} {n o : Net} {ins ms ns os : List Net} {value : Net → Nat}

theorem foldl_concatenated (width value : Net → Nat) (acc : Nat) (os : List Net) :
    os.foldl (fun acc o => acc * 2 ^ width o + value o) acc =
      acc * 2 ^ (os.map width).sum + concatenated width value os := by
  unfold concatenated
  induction os generalizing acc with
  | nil => simp
  | cons o os ih =>
    rw [List.foldl_cons, List.foldl_cons, ih, ih (0 * 2 ^ width o + value o), List.map_cons, List.sum_cons, Nat.pow_add,
      Nat.zero_mul, Nat.zero_add, Nat.add_mul, Nat.mul_assoc, Nat.add_assoc]

theorem concatenated_cons (width value : Net → Nat) (o : Net) (os : List Net) :
    concatenated width value (o :: os) = value o * 2 ^ (os.map width).sum + concatenated width value os := by
  have split := foldl_concatenated width value (value o) os
  unfold concatenated at split ⊢
  rw [List.foldl_cons, Nat.zero_mul, Nat.zero_add]
  exact split

theorem concatenated_append (width value : Net → Nat) (os ms : List Net) : concatenated width value (os ++ ms) =
      concatenated width value os * 2 ^ (ms.map width).sum + concatenated width value ms := by
  have split := foldl_concatenated width value (concatenated width value os) ms
  rw [← split]
  unfold concatenated
  rw [List.foldl_append]

theorem Flattens.refl (t : Netlist) (ns : List Net) : t.Flattens ns ns := by
  induction ns with
  | nil => exact .nil
  | cons n ns ih => exact .net ih

theorem Flattens.fold (flattens : t.Flattens (ms ++ (ins ++ os)) ns) (isConcat : t.IsConcat n ins) :
    t.Flattens (ms ++ n :: os) ns := by
  generalize same : ms ++ (ins ++ os) = all at flattens
  induction flattens generalizing ms with
  | nil =>
    obtain ⟨rfl, isNil⟩ := List.append_eq_nil_iff.mp same
    have rest : t.Flattens (ins ++ os) [] := by
      rw [isNil]
      exact .nil
    exact .gate isConcat rest
  | @net m ms' ns' rest ih =>
    cases ms with
    | nil =>
      have rest' : t.Flattens (ins ++ os) (m :: ns') := by
        rw [List.nil_append] at same
        exact same ▸ .net rest
      exact .gate isConcat rest'
    | cons a ms =>
      obtain ⟨rfl, tails⟩ := List.cons.inj same
      exact .net (ih tails)
  | @gate m ins' ms' ns' isConcat' rest ih =>
    cases ms with
    | nil =>
      have rest' : t.Flattens (ins ++ os) ns' := by
        rw [List.nil_append] at same
        exact same ▸ .gate isConcat' rest
      exact .gate isConcat rest'
    | cons a ms =>
      obtain ⟨rfl, tails⟩ := List.cons.inj same
      have shape : (ins' ++ ms) ++ (ins ++ os) = ins' ++ ms' := by
        rw [List.append_assoc]
        exact congrArg (ins' ++ ·) tails
      have inner := ih shape
      rw [List.append_assoc] at inner
      exact .gate isConcat' inner

theorem IsConcat.extends_ (isConcat : t.IsConcat n ins) (extension : Extends t t') (sound : t.Sound) :
    t'.IsConcat n ins where
  arity := isConcat.arity
  valid := extension.valid isConcat.valid
  klass := by
    rw [extension.parent n isConcat.valid, extension.instances _ (sound.parents n isConcat.valid)]
    exact isConcat.klass
  driver k o inside := by
    rw [extension.parent n isConcat.valid, extension.instances _ (sound.parents n isConcat.valid)]
    exact extension.driver _ o (isConcat.driver k o inside)
  inputs o inside := extension.valid (isConcat.inputs o inside)
  width := by
    have same : ins.map t'.getWidth = ins.map t.getWidth :=
      List.map_congr_left fun o inside => extension.width o (isConcat.inputs o inside)
    rw [extension.width n isConcat.valid, isConcat.width]
    unfold sumWidths
    rw [same]

theorem Flattens.extends_ (flattens : t.Flattens ms ns) (extension : Extends t t') (sound : t.Sound) :
    t'.Flattens ms ns := by
  induction flattens with
  | nil => exact .nil
  | net _ ih => exact .net ih
  | gate isConcat _ ih => exact .gate (isConcat.extends_ extension sound) ih

theorem Flattens.width_mod (flattens : t.Flattens ms ns) :
    (ms.map t.getWidth).sum % 2 ^ 32 = (ns.map t.getWidth).sum % 2 ^ 32 := by
  induction flattens with
  | nil => rfl
  | net _ ih =>
    rw [List.map_cons, List.map_cons, List.sum_cons, List.sum_cons, Nat.add_mod, ih, ← Nat.add_mod]
  | gate isConcat _ ih =>
    rw [List.map_append, List.sum_append] at ih
    rw [List.map_cons, List.sum_cons, isConcat.width, ← ih]
    unfold sumWidths
    rw [Nat.mod_add_mod]

theorem Flattens.concatenated_eq (flattens : t.Flattens ms ns) (small : (ns.map t.getWidth).sum < 2 ^ 32)
    (respects : t.Respects value) : (ms.map t.getWidth).sum = (ns.map t.getWidth).sum ∧
      concatenated t.getWidth value ms = concatenated t.getWidth value ns := by
  induction flattens with
  | nil => exact ⟨rfl, rfl⟩
  | net _ ih =>
    rw [List.map_cons, List.sum_cons] at small
    obtain ⟨width, same⟩ := ih (Nat.lt_of_le_of_lt (Nat.le_add_left _ _) small)
    rw [List.map_cons, List.map_cons, List.sum_cons, List.sum_cons, concatenated_cons, concatenated_cons, width, same]
    exact ⟨rfl, rfl⟩
  | @gate n ins ms ns isConcat _ ih =>
    obtain ⟨width, same⟩ := ih small
    rw [List.map_append, List.sum_append] at width
    have exact_ : t.getWidth n = (ins.map t.getWidth).sum := by
      rw [isConcat.width]
      exact Nat.mod_eq_of_lt (Nat.lt_of_le_of_lt (Nat.le_add_right _ _) (Nat.lt_of_le_of_lt (Nat.le_of_eq width) small))
    rw [concatenated_append] at same
    rw [List.map_cons, List.sum_cons, concatenated_cons, respects n ins isConcat, exact_, width, same]
    exact ⟨rfl, rfl⟩

theorem Flattens.concatenates_iff (flattens : t.Flattens [n] os) (small : t.getWidth n < 2 ^ 32) :
    t.Concatenates n os ↔ (os.map t.getWidth).sum < 2 ^ 32 := by
  constructor
  · intro concatenates
    rw [← concatenates.width]
    exact small
  intro fits
  refine ⟨flattens, ?_, fun value respects => ?_⟩
  · have same := flattens.width_mod
    rw [List.map_singleton, List.sum_singleton, Nat.mod_eq_of_lt small, Nat.mod_eq_of_lt fits] at same
    exact same
  · have same := (flattens.concatenated_eq fits respects).2
    rw [concatenated_cons, List.map_nil, List.sum_nil, Nat.pow_zero, Nat.mul_one] at same
    exact same

theorem buildConcat_spec (sound : t.Sound) (valid : ∀ o ∈ os, t.ValidNet o) (arity : 2 ≤ os.length ∧ os.length ≤ 4) :
    ∃ t', t.buildConcat os = .ok (t.lastNet + 1, t') ∧ t'.Sound ∧ Extends t t' ∧ t'.IsConcat (t.lastNet + 1) os := by
  obtain ⟨t', result, built⟩ :=
    buildGate_spec (idConcat os.length) (t.sumWidths os) [] sound valid (fun extract => by cases extract)
  have same : os.map t'.getWidth = os.map t.getWidth :=
    List.map_congr_left fun o inside => built.extends_.width o (valid o inside)
  have width : t.sumWidths os = t'.sumWidths os := by
    unfold sumWidths
    rw [same]
  refine ⟨t', ?_, built.sound, built.extends_, arity, ⟨Nat.succ_pos _, Nat.le_of_eq built.lastNet.symm⟩, built.klass_,
    built.input, fun o inside => built.extends_.valid (valid o inside), built.width.trans width⟩
  unfold buildConcat
  rw [check_of valid]
  exact result

end Netlist

section Passes

open Netlist

variable {t : Netlist} {arr rest ns : List Net} {len idx newIdx : Nat}

theorem element_eq (isRest : (arr.take len).drop (idx - 1) = rest) (positive : 1 ≤ idx) {j : Nat} {o : Net}
    (inside : rest[j]? = some o) : element arr (idx + j) = .ok o := by
  have place : idx + j - 1 = idx - 1 + j := by omega
  have isElement : arr[idx - 1 + j]? = some o := by
    rw [← isRest, List.getElem?_drop, List.getElem?_take] at inside
    split at inside
    · exact inside
    · exact absurd inside (by simp)
  unfold element
  rw [if_neg (by omega), place, isElement]

/-- The first nets INS of those that are left are gathered into the net O. -/
structure Gathers (t : Netlist) (ins : List Net) (o : Net) (t' : Netlist) : Prop where
  sound : t'.Sound
  extends_ : Extends t t'
  valid : t'.ValidNet o
  folds : ∀ ms os ns, t'.Flattens (ms ++ (ins ++ os)) ns → t'.Flattens (ms ++ o :: os) ns

theorem gathers_single (sound : t.Sound) {o : Net} (valid : t.ValidNet o) : Gathers t [o] o t :=
  ⟨sound, Extends.refl t, valid, fun _ _ _ flattens => flattens⟩

theorem gathers_concat (sound : t.Sound) {ins : List Net} (valid : ∀ o ∈ ins, t.ValidNet o)
    (arity : 2 ≤ ins.length ∧ ins.length ≤ 4) :
    ∃ t', t.buildConcat ins = .ok (t.lastNet + 1, t') ∧ Gathers t ins (t.lastNet + 1) t' := by
  obtain ⟨t', result, sound', extension, isConcat⟩ := buildConcat_spec sound valid arity
  exact ⟨t', result, sound', extension, isConcat.valid, fun ms os ns flattens => flattens.fold isConcat⟩

theorem gather_spec (sound : t.Sound) (isRest : (arr.take len).drop (idx - 1) = rest) (positive : 1 ≤ idx) (inside : idx ≤ len)
    (bound : len ≤ arr.length) (valid : ∀ o ∈ rest, t.ValidNet o) :
    ∃ ins rest' o t', rest = ins ++ rest' ∧ 1 ≤ ins.length ∧ (ins.length = 1 → idx = len) ∧
      gather arr len idx t = .ok (o, t', idx + ins.length) ∧ Gathers t ins o t' := by
  have length : rest.length = len + 1 - idx := by
    rw [← isRest, List.length_drop, List.length_take]
    omega
  have read : ∀ {j : Nat} {o : Net}, rest[j]? = some o → element arr (idx + j) = .ok o :=
    fun inside => element_eq isRest positive inside
  unfold gather
  by_cases one : idx = len
  · obtain ⟨a, rfl⟩ : ∃ a, rest = [a] := List.length_eq_one_iff.mp (by omega)
    have first : element arr idx = .ok a := read (j := 0) rfl
    refine ⟨[a], [], a, t, rfl, Nat.le_refl 1, fun _ => one, ?_, gathers_single sound (valid a List.mem_cons_self)⟩
    rw [if_pos one, first]
    rfl
  rw [if_neg one]
  by_cases two : idx + 1 = len
  · obtain ⟨a, b, rfl⟩ : ∃ a b, rest = [a, b] := List.length_eq_two.mp (by omega)
    have first : element arr idx = .ok a := read (j := 0) rfl
    have second : element arr (idx + 1) = .ok b := read (j := 1) rfl
    obtain ⟨t', built, gathers⟩ := gathers_concat sound valid (by simp)
    refine ⟨[a, b], [], t.lastNet + 1, t', rfl, by simp, fun single => absurd single (by simp), ?_, gathers⟩
    rw [if_pos two, first, second]
    show (t.buildConcat [a, b] >>= _) = _
    rw [built]
    rfl
  rw [if_neg two]
  by_cases three : idx + 2 = len
  · obtain ⟨a, b, c, rfl⟩ : ∃ a b c, rest = [a, b, c] := List.length_eq_three.mp (by omega)
    have first : element arr idx = .ok a := read (j := 0) rfl
    have second : element arr (idx + 1) = .ok b := read (j := 1) rfl
    have third : element arr (idx + 2) = .ok c := read (j := 2) rfl
    obtain ⟨t', built, gathers⟩ := gathers_concat sound valid (by simp)
    refine ⟨[a, b, c], [], t.lastNet + 1, t', rfl, by simp, fun single => absurd single (by simp), ?_, gathers⟩
    rw [if_pos three, first, second, third]
    show (t.buildConcat [a, b, c] >>= _) = _
    rw [built]
    rfl
  obtain ⟨a, b, c, d, rest', rfl⟩ : ∃ a b c d rest', rest = a :: b :: c :: d :: rest' := by
    match rest, length with
    | a :: b :: c :: d :: rest', _ => exact ⟨a, b, c, d, rest', rfl⟩
    | [], length | [_], length | [_, _], length | [_, _, _], length =>
      simp only [List.length_nil, List.length_cons] at length
      omega
  have first : element arr idx = .ok a := read (j := 0) rfl
  have second : element arr (idx + 1) = .ok b := read (j := 1) rfl
  have third : element arr (idx + 2) = .ok c := read (j := 2) rfl
  have fourth : element arr (idx + 3) = .ok d := read (j := 3) rfl
  have valid' : ∀ o ∈ [a, b, c, d], t.ValidNet o := fun o member =>
    valid o (List.mem_append_left rest' member)
  obtain ⟨t', built, gathers⟩ := gathers_concat sound valid' (by simp)
  refine ⟨[a, b, c, d], rest', t.lastNet + 1, t', rfl, by simp, fun single => absurd single (by simp), ?_, gathers⟩
  rw [if_neg three, first, second, third, fourth]
  show (t.buildConcat [a, b, c, d] >>= _) = _
  rw [built]
  rfl

/-- What a pass leaves: fewer nets, which flatten to the elements. -/
structure Passed (t : Netlist) (len : Nat) (arr ns : List Net) (newIdx : Nat) (arr' : List Net) (t' : Netlist) : Prop where
  sound : t'.Sound
  extends_ : Extends t t'
  length : arr'.length = arr.length
  positive : 1 ≤ newIdx
  fewer : newIdx < len
  valid : ∀ o ∈ arr'.take newIdx, t'.ValidNet o
  flattens : t'.Flattens (arr'.take newIdx) ns

theorem gatherLoop_spec (fuel idx newIdx : Nat) (enough : len + 1 - idx < fuel) (sound : t.Sound) (several : 1 < len)
    (bound : len ≤ arr.length) (positive : 1 ≤ idx) (atMost : idx ≤ len + 1)
    (ahead : idx = 1 ∧ newIdx = 0 ∨ 1 ≤ newIdx ∧ newIdx + 2 ≤ idx)
    (valid : ∀ o ∈ arr.take newIdx ++ (arr.take len).drop (idx - 1), t.ValidNet o)
    (flattens : t.Flattens (arr.take newIdx ++ (arr.take len).drop (idx - 1)) ns) :
    ∃ newIdx' arr' t', gatherLoop len fuel idx newIdx arr t = .ok (newIdx', arr', t') ∧
      Passed t len arr ns newIdx' arr' t' := by
  induction fuel generalizing idx newIdx arr t with
  | zero => exact absurd enough (Nat.not_lt_zero _)
  | succ fuel ih =>
    unfold gatherLoop
    by_cases more : idx ≤ len
    · rw [if_pos more]
      obtain ⟨rest, isRest⟩ : ∃ rest, (arr.take len).drop (idx - 1) = rest := ⟨_, rfl⟩
      have length : rest.length = len + 1 - idx := by
        rw [← isRest, List.length_drop, List.length_take]
        omega
      rw [isRest] at valid flattens
      obtain ⟨ins, rest', o, t', split, some, single, gathered, gathers⟩ := gather_spec sound isRest positive more bound
        fun o inside => valid o (List.mem_append_right _ inside)
      have sizes : ins.length + rest'.length = len + 1 - idx := by
        rw [← length, split, List.length_append]
      have several' : idx = 1 → 2 ≤ ins.length := by
        intro atFirst
        apply Classical.byContradiction
        intro few
        have atLast := single (by omega)
        omega
      have isSet : setElement arr (newIdx + 1) o = .ok (arr.set newIdx o) := by
        unfold setElement
        rw [check_of ⟨Nat.succ_pos newIdx, by omega⟩]
        rfl
      have done : (arr.set newIdx o).take (newIdx + 1) = arr.take newIdx ++ [o] := by
        rw [List.take_add_one, List.take_set_of_le (Nat.le_refl newIdx), List.getElem?_set_self (by omega)]
        rfl
      have left : ((arr.set newIdx o).take len).drop (idx + ins.length - 1) = rest' := by
        have before : idx + ins.length - 1 = idx - 1 + ins.length := by omega
        rw [List.take_set, List.drop_set_of_lt (by omega), before, ← List.drop_drop, isRest, split, List.drop_left]
      have folded := gathers.folds (arr.take newIdx) rest' ns (split ▸ flattens.extends_ gathers.extends_ sound)
      have all : (arr.set newIdx o).take (newIdx + 1) ++ ((arr.set newIdx o).take len).drop (idx + ins.length - 1) =
          arr.take newIdx ++ o :: rest' := by
        rw [done, left, List.append_assoc]
        rfl
      have valid' : ∀ m ∈ arr.take newIdx ++ o :: rest', t'.ValidNet m := by
        intro m inside
        rcases List.mem_append.mp inside with old | new
        · exact gathers.extends_.valid (valid m (List.mem_append_left _ old))
        · rcases List.mem_cons.mp new with rfl | old
          · exact gathers.valid
          · exact gathers.extends_.valid (valid m (List.mem_append_right _ (split ▸ List.mem_append_right ins old)))
      obtain ⟨newIdx', arr', t'', loop, passed⟩ := ih (idx + ins.length) (newIdx + 1) (by omega) gathers.sound
        (by rw [List.length_set]; exact bound) (by omega) (by omega) (by omega) (all ▸ valid') (all ▸ folded)
      refine ⟨newIdx', arr', t'', ?_, passed.sound, gathers.extends_.trans passed.extends_,
        passed.length.trans List.length_set, passed.positive, passed.fewer, passed.valid, passed.flattens⟩
      rw [gathered]
      show (setElement arr (newIdx + 1) o >>= _) = _
      rw [isSet]
      exact loop
    · rw [if_neg more]
      have nothing : (arr.take len).drop (idx - 1) = [] := List.drop_of_length_le (by rw [List.length_take]; omega)
      rw [nothing, List.append_nil] at valid flattens
      exact ⟨newIdx, arr, t, rfl, sound, Extends.refl t, rfl, by omega, by omega, valid, flattens⟩

theorem vectorizeLoop_spec {fuel : Nat} (arr ns : List Net) (enough : len ≤ fuel) (sound : t.Sound) (positive : 1 ≤ len) (bound : len ≤ arr.length)
    (valid : ∀ o ∈ arr.take len, t.ValidNet o) (flattens : t.Flattens (arr.take len) ns) :
    ∃ arr' o t', vectorizeLoop fuel len arr t = .ok (arr', t') ∧ element arr' 1 = .ok o ∧ t'.Sound ∧ Extends t t' ∧
      t'.ValidNet o ∧ t'.Flattens [o] ns := by
  induction fuel generalizing len arr t with
  | zero => omega
  | succ fuel ih =>
    unfold vectorizeLoop
    by_cases several : 1 < len
    · rw [if_pos several]
      have start : arr.take 0 ++ (arr.take len).drop (1 - 1) = arr.take len := rfl
      obtain ⟨newIdx, arr', t', pass, passed⟩ := gatherLoop_spec (len + 1) 1 0 (by omega) sound
        several bound (Nat.le_refl 1) (by omega) (Or.inl ⟨rfl, rfl⟩) (start ▸ valid) (start ▸ flattens)
      obtain ⟨arr'', o, t'', rest, isFirst, sound', extension, valid', flattens'⟩ := ih arr' (by have fewer := passed.fewer; omega)
        passed.sound passed.positive (by have fewer := passed.fewer; rw [passed.length]; omega) passed.valid passed.flattens
      refine ⟨arr'', o, t'', ?_, isFirst, sound', passed.extends_.trans extension, valid', flattens'⟩
      rw [pass]
      exact rest
    · rw [if_neg several]
      obtain rfl : len = 1 := by omega
      obtain ⟨o, arr', rfl⟩ : ∃ o arr', arr = o :: arr' := List.exists_cons_of_length_pos (by omega)
      exact ⟨o :: arr', o, t, rfl, rfl, sound, Extends.refl t, valid o List.mem_cons_self, flattens⟩

end Passes

/-- The outputs of one instance, with their widths. -/
def outputsOf (widths : List Width) : Netlist := (Netlist.empty.newInstance (.other 29) 0 widths 0).2

theorem sound_outputsOf (widths : List Width) : (outputsOf widths).Sound where
  threaded := ⟨_, Netlist.empty_threaded.newInstance (.other 29) 0 widths 0⟩
  parents n valid := by
    have new : ¬ n ≤ 0 := Nat.not_le.mpr valid.1
    have parent : ((outputsOf widths).nets n).parent = 0 + 1 := congrArg NetRecord.parent (if_neg new)
    exact Nat.le_of_eq parent
  offsets i bound extracts := by
    have other : ((outputsOf widths).instances i).klass ≠ .extract := by
      unfold outputsOf Netlist.newInstance
      dsimp only
      by_cases new : i = Netlist.empty.lastInstance + 1
      · rw [new, Function.update_self]
        exact ModuleId.noConfusion
      · rw [Function.update_of_ne new]
        exact ModuleId.noConfusion
    exact absurd extracts other

end Ghdl.Synth
