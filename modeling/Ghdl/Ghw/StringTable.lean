import Ghdl.Ghw.Strings

/-!
# The table of strings

However the strings of a design come, with repetitions and in any order, the tree holds each of them once, and the
walk over it gives them in increasing order. A binary search then finds each one at its place; the table is too
short for an index to overflow, as the length of all its strings together is a number.
-/

namespace Ghdl.Ghw

open Trees Avls

/-- The characters of a C string are not NUL. -/
def NonNul (s : CString) : Prop := ∀ c ∈ s, c ≠ 0

/-- The order of `Strcmp`. -/
def key (s : CString) : List Nat := s.map UInt8.toNat

theorem key_inj {a b : CString} : key a = key b ↔ a = b :=
  (List.map_injective_iff.mpr fun _ _ same => UInt8.toNat_inj.mp same).eq_iff

theorem strcmp_compares {a b : CString} (nonNulA : NonNul a) (nonNulB : NonNul b) :
    (strcmp a b = 0 ↔ key a = key b) ∧ (strcmp a b < 0 ↔ key a < key b) := by
  induction a generalizing b with
  | nil =>
    cases b with
    | nil => simp [strcmp, key]
    | cons d b =>
      have positive : d.toNat ≠ 0 := fun zero => nonNulB d List.mem_cons_self (UInt8.toNat_inj.mp zero)
      have less : strcmp [] (d :: b) < 0 := by
        show -(d.toNat : Int) < 0
        omega
      refine ⟨iff_of_false (by omega) (by simp [key]), iff_of_true less (List.nil_lt_cons _ _)⟩
  | cons c a ih =>
    cases b with
    | nil =>
      have positive : c.toNat ≠ 0 := fun zero => nonNulA c List.mem_cons_self (UInt8.toNat_inj.mp zero)
      have more : strcmp (c :: a) [] > 0 := by
        show (c.toNat : Int) > 0
        omega
      refine ⟨iff_of_false (by omega) (by simp [key]), iff_of_false (by omega) (List.not_lt_nil _)⟩
    | cons d b =>
      have rest := ih (fun c inside => nonNulA c (List.mem_cons_of_mem _ inside))
        (fun c inside => nonNulB c (List.mem_cons_of_mem _ inside))
      have lt : key (c :: a) < key (d :: b) ↔ c.toNat < d.toNat ∨ c.toNat = d.toNat ∧ key a < key b :=
        List.cons_lt_cons_iff
      have eq : key (c :: a) = key (d :: b) ↔ c.toNat = d.toNat ∧ key a = key b := List.cons_eq_cons
      rw [lt, eq]
      unfold strcmp
      by_cases same : c = d
      · rw [if_pos same, same, rest.1, rest.2]
        simp
      · have different : c.toNat ≠ d.toNat := fun equal => same (UInt8.toNat_inj.mp equal)
        rw [if_neg same]
        omega

variable {strTable : List CString}

theorem strCompare_compares (nonNul : ∀ s ∈ strTable, NonNul s) :
    NamedTree.Compares (strCompare strTable) fun n => key (entry strTable n) := by
  have entries : ∀ n, NonNul (entry strTable n) := by
    intro n
    unfold entry
    rw [List.getD_eq_getElem?_getD]
    cases found : strTable[n - 1]? with
    | none => exact fun c inside => absurd inside List.not_mem_nil
    | some s => exact nonNul s (List.mem_of_getElem? found)
  constructor
  · intro a b
    unfold strCompare
    split
    · rename_i same
      simp [same]
    · exact (strcmp_compares (entries a) (entries b)).1
  · intro a b
    unfold strCompare
    split
    · rename_i same
      simp [same]
    · exact (strcmp_compares (entries a) (entries b)).2

theorem entry_append (str : CString) {n : Nat} (positive : 1 ≤ n) (inside : n ≤ strTable.length) :
    entry (strTable ++ [str]) n = entry strTable n := by
  unfold entry
  rw [List.getD_append _ _ _ _ (by omega)]

theorem entry_last (str : CString) : entry (strTable ++ [str]) (strTable.length + 1) = str := by
  simp [entry]

theorem entry_mem {n : Nat} (positive : 1 ≤ n) (inside : n ≤ strTable.length) : entry strTable n ∈ strTable := by
  unfold entry
  rw [List.getD_eq_getElem strTable [] (by omega)]
  exact List.getElem_mem _

/-- The tree holds the indices of the strings, in the order of the strings. -/
structure Strings.InTree (s : Strings) (t : NamedTree AvlNid AvlValue) : Prop where
  nonempty : t ≠ .nil
  holds : Avls.Holds s.strAvl avlRoot t
  balanced : t.Balanced
  ids : t.ids.Perm (List.range' 1 s.strTable.length)
  vals : t.vals.Perm (List.range' 1 s.strTable.length)
  ordered : NamedTree.Ordered (fun n => key (entry s.strTable n)) t.vals

/-- What holds between the calls of `Create_String_Id`. -/
structure Strings.Holds (s : Strings) : Prop where
  nonNul : ∀ str ∈ s.strTable, NonNul str
  distinct : s.strTable.Nodup
  len : s.stringsLen = (s.strTable.map List.length).sum
  tree : s.strTable = [] ∨ ∃ t, s.InTree t

theorem Strings.holds_empty : Strings.empty.Holds :=
  ⟨fun _ inside => absurd inside List.not_mem_nil, List.nodup_nil, rfl, Or.inl rfl⟩

variable {s : Strings} {t : NamedTree AvlNid AvlValue} {str : CString}

theorem Strings.InTree.mem_vals (inTree : s.InTree t) {n : Nat} : n ∈ t.vals ↔ 1 ≤ n ∧ n ≤ s.strTable.length := by
  rw [inTree.vals.mem_iff, List.mem_range'_1]
  omega

theorem Strings.InTree.fresh (inTree : s.InTree t) (v : AvlValue) :
    Fresh (s.strAvl.set (s.strTable.length + 1) fun _ => ⟨v, avlNil, avlNil, 1⟩) (s.strTable.length + 1) v t ∧
      Avls.Holds (s.strAvl.set (s.strTable.length + 1) fun _ => ⟨v, avlNil, avlNil, 1⟩) avlRoot t := by
  have outside : s.strTable.length + 1 ∉ t.ids := by
    rw [inTree.ids.mem_iff, List.mem_range'_1]
    omega
  refine ⟨⟨Nat.succ_ne_zero _, set_self _ _ _, outside⟩, inTree.holds.frame fun k inside => ?_⟩
  exact set_of_ne _ _ fun same => outside (same ▸ inside)

theorem range_succ (n : Nat) : (List.range' 1 (n + 1)).Perm ((n + 1) :: List.range' 1 n) := by
  rw [List.range'_1_concat, Nat.add_comm 1 n]
  exact List.perm_append_singleton _ _

theorem createStringId_spec (holds : s.Holds) (nonNul : NonNul str) :
    ∃ s', createStringId s (some str) = .ok s' ∧ s'.Holds ∧
      s'.strTable = if str ∈ s.strTable then s.strTable else s.strTable ++ [str] := by
  have nonNul' : ∀ x ∈ s.strTable ++ [str], NonNul x := by
    intro x inside
    rcases List.mem_append.mp inside with inside | inside
    · exact holds.nonNul x inside
    · exact List.mem_singleton.mp inside ▸ nonNul
  have compares := strCompare_compares nonNul'
  have size : (s.strTable ++ [str]).length = s.strTable.length + 1 := by simp
  unfold createStringId
  dsimp only
  rw [size]
  rcases holds.tree with none | ⟨t, inTree⟩
  · have self : strCompare [str] 1 1 = 0 := by simp [strCompare]
    obtain ⟨got, held⟩ := getNode_first (strCompare [str])
      (set_self s.strAvl avlRoot fun _ => ⟨1, avlNil, avlNil, 1⟩) self
    have len := holds.len
    rw [none] at nonNul' len ⊢
    have run : getNode (strCompare [str]) (s.strAvl.set 1 fun _ => ⟨1, avlNil, avlNil, 1⟩) 1 1 =
        .ok (s.strAvl.set 1 fun _ => ⟨1, avlNil, avlNil, 1⟩, 1) := got
    show ∃ s', (getNode (strCompare [str]) (s.strAvl.set 1 fun _ => ⟨1, avlNil, avlNil, 1⟩) 1 1 >>= _) = _ ∧ _
    rw [run]
    refine ⟨_, rfl, ⟨nonNul', List.nodup_singleton str, ?_, Or.inr ⟨.node 1 1 .nil .nil, ?_⟩⟩, rfl⟩
    · show s.stringsLen + str.length = _
      rw [len]
      simp
    · exact ⟨by simp, held, ⟨trivial, trivial, Nat.zero_le _, Nat.zero_le _⟩, List.Perm.refl _, List.Perm.refl _,
        List.pairwise_singleton _ _⟩
  · obtain ⟨fresh, held⟩ := inTree.fresh (s.strTable.length + 1)
    have distinct : t.ids.Nodup := inTree.ids.nodup_iff.mpr (List.nodup_range')
    have count : t.ids.length < s.strTable.length + 1 := by
      rw [inTree.ids.length_eq, List.length_range']
      omega
    have same : ∀ n ∈ t.vals, entry (s.strTable ++ [str]) n = entry s.strTable n := fun n inside =>
      entry_append str (inTree.mem_vals.mp inside).1 (inTree.mem_vals.mp inside).2
    have ordered : NamedTree.Ordered (fun n => key (entry (s.strTable ++ [str]) n)) t.vals := by
      refine inTree.ordered.imp_of_mem fun inA inB less => ?_
      show key (entry (s.strTable ++ [str]) _) < key (entry (s.strTable ++ [str]) _)
      rw [same _ inA, same _ inB]
      exact less
    have got := getNode_spec (strCompare (s.strTable ++ [str])) held inTree.nonempty distinct inTree.balanced fresh count
    have placed := NamedTree.insert_vals compares (s.strTable.length + 1) (s.strTable.length + 1) ordered
    cases result : NamedTree.insert (strCompare (s.strTable ++ [str])) (s.strTable.length + 1) (s.strTable.length + 1) t with
    | none =>
      rw [result] at got placed
      obtain ⟨v, inside, equal⟩ := placed
      obtain ⟨res, other, run⟩ := got
      obtain ⟨positive, within⟩ := inTree.mem_vals.mp inside
      have found : str ∈ s.strTable := by
        have isStr : entry s.strTable v = str := by
          have keys : key (entry (s.strTable ++ [str]) v) = key (entry (s.strTable ++ [str]) (s.strTable.length + 1)) :=
            equal
          rw [same v inside, entry_last] at keys
          exact key_inj.mp keys
        exact isStr ▸ entry_mem positive within
      rw [run, if_pos found]
      refine ⟨_, if_pos other, ⟨holds.nonNul, holds.distinct, holds.len, Or.inr ⟨t, ?_⟩⟩, rfl⟩
      exact ⟨inTree.nonempty, held, inTree.balanced, inTree.ids, inTree.vals, inTree.ordered⟩
    | some t' =>
      rw [result] at got placed
      obtain ⟨tree', run, made⟩ := got
      obtain ⟨⟨before, after, isVals, isVals'⟩, ordered'⟩ := placed
      have vals : t'.vals.Perm ((s.strTable.length + 1) :: t.vals) := by
        rw [isVals', isVals]
        exact List.perm_middle
      have fresh' : str ∉ s.strTable := by
        intro found
        obtain ⟨i, inside, isStr⟩ := List.getElem_of_mem found
        have atI : entry (s.strTable ++ [str]) (i + 1) = str := by
          rw [entry_append str (by omega) (by omega)]
          unfold entry
          rw [Nat.add_sub_cancel, List.getD_eq_getElem s.strTable [] inside, isStr]
        have inOld : i + 1 ∈ t'.vals := vals.mem_iff.mpr (List.mem_cons_of_mem _ (inTree.mem_vals.mpr (by omega)))
        have inNew : s.strTable.length + 1 ∈ t'.vals := vals.mem_iff.mpr List.mem_cons_self
        have keys : (t'.vals.map fun n => key (entry (s.strTable ++ [str]) n)).Nodup :=
          List.pairwise_map.mpr (ordered'.imp fun less => ne_of_lt less)
        have equal : i + 1 = s.strTable.length + 1 := List.inj_on_of_nodup_map keys inOld inNew (by rw [atI, entry_last])
        omega
      have grows := NamedTree.insert_grows _ _ _ inTree.balanced result
      have nonempty' : t' ≠ .nil := by
        intro nil
        rw [nil] at vals
        exact absurd vals (List.not_perm_nil_cons _ _)
      rw [run, if_neg fresh']
      refine ⟨_, if_neg (not_not.mpr rfl), ⟨nonNul', ?_, ?_, Or.inr ⟨t', ?_⟩⟩, rfl⟩
      · exact List.nodup_append.mpr ⟨holds.distinct, List.nodup_singleton str, fun a inA b inB same =>
          fresh' (List.mem_singleton.mp inB ▸ same ▸ inA)⟩
      · show s.stringsLen + str.length = _
        rw [holds.len]
        simp
      · refine ⟨nonempty', made.holds, grows.balanced, ?_, ?_, ordered'⟩
        · rw [size]
          exact (NamedTree.ids_insert _ _ _ result).trans ((inTree.ids.cons _).trans (range_succ _).symm)
        · rw [size]
          exact vals.trans ((inTree.vals.cons _).trans (range_succ _).symm)

theorem collectStrings_spec {names : List CString} (nonNul : ∀ str ∈ names, NonNul str) :
    ∃ s, collectStrings names = .ok s ∧ s.Holds ∧ ∀ str, str ∈ s.strTable ↔ str ∈ names := by
  have all : ∀ (s : Strings), s.Holds →
      ∃ s', names.foldlM (fun s str => createStringId s (some str)) s = .ok s' ∧ s'.Holds ∧
        ∀ str, str ∈ s'.strTable ↔ str ∈ s.strTable ∨ str ∈ names := by
    induction names with
    | nil => exact fun s holds => ⟨s, rfl, holds, fun str => by simp⟩
    | cons name names ih =>
      intro s holds
      obtain ⟨s₁, first, holds₁, isTable⟩ := createStringId_spec holds (nonNul name List.mem_cons_self)
      obtain ⟨s', rest, holds', members⟩ := ih (fun str inside => nonNul str (List.mem_cons_of_mem _ inside)) s₁ holds₁
      refine ⟨s', ?_, holds', fun str => ?_⟩
      · rw [List.foldlM_cons, first]
        exact rest
      rw [members, isTable, List.mem_cons]
      split
      · rename_i found
        constructor
        · rintro (old | later)
          · exact Or.inl old
          · exact Or.inr (Or.inr later)
        · rintro (old | rfl | later)
          · exact Or.inl old
          · exact Or.inl found
          · exact Or.inr later
      · rw [List.mem_append, List.mem_singleton, or_assoc]
  obtain ⟨s, run, holds, members⟩ := all Strings.empty Strings.holds_empty
  refine ⟨s, run, holds, fun str => ?_⟩
  rw [members]
  simp [Strings.empty]

/-- The strings in increasing order. -/
def Increasing (strTable : List CString) : Prop := strTable.Pairwise fun a b => key a < key b

theorem storeStrings_spec {n : AvlNid} (holds : Avls.Holds s.strAvl n t) {fuel : Nat} (enough : t.height < fuel) :
    storeStrings s fuel n = .ok (t.vals.map (entry s.strTable)) := by
  induction t generalizing n fuel with
  | nil =>
    obtain ⟨fuel, rfl⟩ := Fallible.fuel_succ enough
    exact if_pos holds
  | node id v l r ihl ihr =>
    obtain ⟨fuel, rfl⟩ := Fallible.fuel_succ enough
    obtain ⟨rfl, some, val, left, right, -⟩ := holds
    simp only [NamedTree.height] at enough
    unfold storeStrings
    rw [if_neg some, ihl left (by omega)]
    show (storeStrings s fuel (s.strAvl n).right >>= _) = _
    rw [ihr right (by omega), NamedTree.vals, List.map_append, List.map_cons, ← val]
    rfl

theorem map_entry_range (strTable : List CString) :
    (List.range' 1 strTable.length).map (entry strTable) = strTable := by
  apply List.ext_getElem
  · simp
  · intro i inMap inTable
    rw [List.getElem_map, List.getElem_range'_1]
    unfold entry
    rw [Nat.add_sub_cancel_left, List.getD_eq_getElem strTable [] inTable]

theorem freezeStrings_spec (holds : s.Holds) :
    ∃ strTable, freezeStrings s = .ok strTable ∧ strTable.Perm s.strTable ∧ Increasing strTable := by
  unfold freezeStrings
  rcases holds.tree with none | ⟨t, inTree⟩
  · refine ⟨s.strTable, if_neg (by simp [none]), List.Perm.refl _, ?_⟩
    rw [none]
    exact List.Pairwise.nil
  have size := inTree.ids.length_eq
  have depth := NamedTree.height_le_length t
  have some : s.strTable.length > 0 := by
    cases isTree : t with
    | nil => exact absurd isTree inTree.nonempty
    | node n v l r =>
      rw [isTree, List.length_range'] at size
      simp only [NamedTree.ids, List.length_cons] at size
      omega
  rw [List.length_range'] at size
  refine ⟨t.vals.map (entry s.strTable), ?_, ?_, List.pairwise_map.mpr inTree.ordered⟩
  · rw [if_pos some, storeStrings_spec inTree.holds (by omega)]
  · have perm := inTree.vals.map (entry s.strTable)
    rwa [map_entry_range] at perm

section

variable (increasing : Increasing strTable)
include increasing

theorem Increasing.entry_lt {i j : Nat} (positive : 1 ≤ i) (less : i < j)
    (inside : j ≤ strTable.length) : key (entry strTable i) < key (entry strTable j) := by
  have pairs := List.pairwise_iff_getElem.mp increasing (i - 1) (j - 1) (by omega) (by omega) (by omega)
  unfold entry
  rw [List.getD_eq_getElem strTable [] (by omega), List.getD_eq_getElem strTable [] (by omega)]
  exact pairs

theorem getStringLoop_spec (nonNul : ∀ s ∈ strTable, NonNul s)
    (small : strTable.length < 2 ^ 30) {p : Nat} {fuel : Nat} {l h : Int} (above : 1 ≤ l) (below : l ≤ p)
    (upto : p ≤ h) (inside : h ≤ strTable.length) (enough : h - l < fuel) :
    getStringLoop strTable (entry strTable p) fuel l h = p := by
  induction fuel generalizing l h with
  | zero => omega
  | succ fuel ih =>
    have middle : ((l + h).bmod (2 ^ 32)).tdiv 2 = (l + h) / 2 := by
      rw [Int.bmod_eq_of_le (by omega) (by omega), Int.tdiv_eq_ediv_of_nonneg (by omega)]
    obtain ⟨m, isM⟩ : ∃ m : Nat, (l + h) / 2 = m := ⟨((l + h) / 2).toNat, by omega⟩
    have nonNulAt : ∀ n, 1 ≤ n → n ≤ strTable.length → NonNul (entry strTable n) :=
      fun n positive within => nonNul _ (entry_mem positive within)
    obtain ⟨equal, less⟩ := strcmp_compares (nonNulAt p (by omega) (by omega)) (nonNulAt m (by omega) (by omega))
    unfold getStringLoop
    dsimp only
    rw [middle, isM, Int.toNat_natCast]
    rcases Nat.lt_trichotomy p m with lower | same | higher
    · have order := increasing.entry_lt (by omega) lower (by omega)
      have diff := less.mpr order
      have bounds : ¬ l > (m : Int) - 1 := by omega
      rw [if_neg (by omega), if_pos diff, if_pos diff, if_neg bounds]
      exact ih above below (by omega) (by omega) (by omega)
    · rw [if_pos (equal.mpr (by rw [same])), same]
    · have order := increasing.entry_lt (by omega) higher (by omega)
      have different := fun zero => ne_of_gt order (equal.mp zero)
      have diff := fun negative => lt_asymm order (less.mp negative)
      have bounds : ¬ (m : Int) + 1 > h := by omega
      rw [if_neg different, if_neg diff, if_neg diff, if_neg bounds]
      exact ih (by omega) (by omega) upto inside (by omega)

/-- `Get_String` gives the index of each string of a sorted table. -/
theorem getString_spec (nonNul : ∀ s ∈ strTable, NonNul s)
    (small : strTable.length < 2 ^ 30) {p : Nat} (positive : 1 ≤ p) (inside : p ≤ strTable.length) :
    getString strTable (entry strTable p) = p :=
  getStringLoop_spec increasing nonNul small (Int.le_refl 1) (by omega) (by omega) (Int.le_refl _) (by omega)

end

/-- The place of a short string in a listing of them. -/
def shortIndex : CString → Fin 65793
  | [] => 0
  | [a] => ⟨1 + a.toNat, by have := a.toNat_lt; omega⟩
  | a :: b :: _ => ⟨257 + 256 * a.toNat + b.toNat, by have := a.toNat_lt; have := b.toNat_lt; omega⟩

theorem shortIndex_inj {s t : CString} (shortS : s.length < 3) (shortT : t.length < 3)
    (same : shortIndex s = shortIndex t) : s = t := by
  have values := congrArg Fin.val same
  match s, t, shortS, shortT with
  | [], [], _, _ => rfl
  | [], [c], _, _ =>
    simp only [shortIndex, Fin.val_zero] at values
    omega
  | [], [c, d], _, _ =>
    simp only [shortIndex, Fin.val_zero] at values
    omega
  | [a], [], _, _ =>
    simp only [shortIndex, Fin.val_zero] at values
    omega
  | [a], [c], _, _ =>
    simp only [shortIndex] at values
    rw [UInt8.toNat_inj.mp (Nat.add_left_cancel values)]
  | [a], [c, d], _, _ =>
    have bound := a.toNat_lt
    simp only [shortIndex] at values
    omega
  | [a, b], [], _, _ =>
    simp only [shortIndex, Fin.val_zero] at values
    omega
  | [a, b], [c], _, _ =>
    have bound := c.toNat_lt
    simp only [shortIndex] at values
    omega
  | [a, b], [c, d], _, _ =>
    have boundB := b.toNat_lt
    have boundD := d.toNat_lt
    simp only [shortIndex] at values
    have first : a.toNat = c.toNat := by omega
    have second : b.toNat = d.toNat := by omega
    rw [UInt8.toNat_inj.mp first, UInt8.toNat_inj.mp second]

theorem length_lt_of_distinct (distinct : strTable.Nodup) (natural : (strTable.map List.length).sum < 2 ^ 31) :
    strTable.length < 2 ^ 30 := by
  have counted : ∀ l : List CString,
      3 * l.length ≤ (l.map List.length).sum + 3 * (l.filter fun s => s.length < 3).length := by
    intro l
    induction l with
    | nil => simp
    | cons s l ih =>
      by_cases short : s.length < 3
      · simp only [List.filter_cons, short, decide_true, if_true, List.length_cons, List.map_cons, List.sum_cons]
        omega
      · simp only [List.filter_cons, short, decide_false, List.length_cons, List.map_cons, List.sum_cons]
        simp only [Bool.false_eq_true, if_false]
        omega
  have indices : ((strTable.filter fun s => s.length < 3).map shortIndex).Nodup := by
    refine (distinct.filter _).map_on fun s inS t inT same => ?_
    have shortS := of_decide_eq_true (List.mem_filter.mp inS).2
    have shortT := of_decide_eq_true (List.mem_filter.mp inT).2
    exact shortIndex_inj shortS shortT same
  have few := indices.length_le_card
  rw [List.length_map, Fintype.card_fin] at few
  have all := counted strTable
  omega

end Ghdl.Ghw
