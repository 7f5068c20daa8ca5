import Ghdl.Synth.Vectorize

/-!
# Case statements

`Synth_Case` builds a tree of multiplexers from an array of choices that is sorted by their values. Each level chooses
by two bits of the selector, and overwrites the array by its groups. In every level the element of a group has the value
that is expected for the bits of the group and the bits of the selector that have been used.
-/

namespace Ghdl.Synth

open Function

/-- `Case_Element`. -/
structure CaseElement where
  sel : BitVec 64
  val : Net

/-- `(S and Mask)` where `Mask` is `Shift_Left (not 0, Bits)`. -/
def masked (s : BitVec 64) (bits : Nat) : BitVec 64 := s &&& (BitVec.allOnes 64 <<< bits)

/-- What differs between the levels of the tree. -/
structure CaseLevel where
  /-- The number of elements of `G`. -/
  size : Nat
  /-- `S_Group`, of the first element of the group. -/
  group : BitVec 64 → BitVec 64
  /-- The condition of the second `exit`, of `S_El` and `S_Group`. -/
  leaves : BitVec 64 → BitVec 64 → Bool
  /-- `El_Idx`. -/
  elIdx : BitVec 64 → Nat
  /-- The multiplexer of `G`. -/
  build : (Nat → Net) → Netlist → Outcome (Net × Netlist)

/-- A level of `Mux4`. -/
def mux4Level (i : Nat) (subSel : Net) : CaseLevel where
  size := 4
  group s := masked s (2 * i)
  leaves sEl sGroup := masked sEl (2 * i) ≠ sGroup
  elIdx sEl := ((sEl >>> (2 * (i - 1))) &&& 3#64).toNat
  build g t := t.buildMux4 subSel (g 0) (g 1) (g 2) (g 3)

/-- The last level, of `Mux2`. `Mask` is that of the level before; it is not set when there is none, and nothing reads
the group then. -/
def mux2Level (wd : Width) (subSel : Net) : CaseLevel where
  size := 2
  group s := masked s (2 * (wd / 2))
  leaves _ _ := false
  elIdx sEl := ((sEl >>> (wd - 1)) &&& 1#64).toNat
  build g t := t.buildMux2 subSel (g 0) (g 1)

/-- The loop over K: `G` and `Iels`. -/
def fillGroup (level : CaseLevel) (els : Nat → CaseElement) (lels : Nat) (sGroup : BitVec 64) :
    Nat → (Nat → Net) → Nat → (Nat → Net) × Nat
  | 0, g, iels => (g, iels)
  | k + 1, g, iels =>
    if lels < iels then (g, iels)
    else if level.leaves (els iels).sel sGroup then (g, iels)
    else fillGroup level els lels sGroup k
      (update g (level.elIdx (els iels).sel) (els iels).val) (iels + 1)

/-- The `while` loop of a level: `Lels` behind it, `Els` and the netlist. -/
def groupLoop (level : CaseLevel) (default : Net) (lels : Nat) : Nat → Nat → Nat → (Nat → CaseElement) → Netlist →
    Outcome (Nat × (Nat → CaseElement) × Netlist)
  | 0, _, _, _, _ => .error .endless
  | fuel + 1, iels, oels, els, t =>
    if iels ≤ lels then do
      let sGroup := level.group (els iels).sel
      let filled := fillGroup level els lels sGroup level.size (fun _ => default) iels
      let (val, t) ← level.build filled.1 t
      groupLoop level default lels fuel filled.2 (oels + 1) (update els oels ⟨sGroup, val⟩) t
    else return (oels - 1, els, t)

/-- The levels of `Mux4`, for I in the list. -/
def mux4Levels (sel default : Net) (first : Nat) : List Nat → Nat → (Nat → CaseElement) → Netlist →
    Outcome (Nat × (Nat → CaseElement) × Netlist)
  | [], lels, els, t => return (lels, els, t)
  | i :: is, lels, els, t => do
    let (subSel, t) ← t.buildSlice sel (2 * (i - 1)) 2
    let (lels, els, t) ← groupLoop (mux4Level i subSel) default lels (lels + 2) first first els t
    mux4Levels sel default first is lels els t

/-- The last level, when the width is odd. -/
def lastLevel (sel default : Net) (first lels : Nat) (els : Nat → CaseElement) (t : Netlist) :
    Outcome (Nat × (Nat → CaseElement) × Netlist) :=
  if t.getWidth sel % 2 = 1 then do
    let wd := t.getWidth sel
    let (subSel, t) ← t.buildExtractBit sel (wd - 1)
    groupLoop (mux2Level wd subSel) default lels (lels + 2) first first els t
  else return (lels, els, t)

/-- `Synth_Case`, for the elements from FIRST to LAST. -/
def synthCase (t : Netlist) (sel : Net) (els : Nat → CaseElement) (first last : Nat) (default : Net) :
    Outcome (Net × Netlist) :=
  if last < first then return (default, t)
  else do
    let (lels, els, t) ← mux4Levels sel default first (List.range' 1 (t.getWidth sel / 2)) last els t
    let (lels, els, t) ← lastLevel sel default first lels els t
    check (lels = first)
    return ((els first).val, t)

theorem masked_toNat (s : BitVec 64) (bits : Nat) : (masked s bits).toNat = s.toNat / 2 ^ bits * 2 ^ bits := by
  have same : masked s bits = (s >>> bits) <<< bits := by
    unfold masked
    ext k bound
    simp only [BitVec.getElem_and, BitVec.getElem_shiftLeft, BitVec.getElem_allOnes]
    by_cases low : k < bits
    · simp [low]
    · have back : bits + (k - bits) = k := by omega
      simp [low, back]
      exact (BitVec.getLsbD_eq_getElem bound).symm
  rw [same, BitVec.toNat_shiftLeft, BitVec.toNat_ushiftRight, Nat.shiftRight_eq_div_pow, Nat.shiftLeft_eq]
  exact Nat.mod_eq_of_lt (Nat.lt_of_le_of_lt (Nat.div_mul_le_self _ _) s.isLt)

theorem index_toNat (s : BitVec 64) (bits k : Nat) (small : k < 64) :
    ((s >>> bits) &&& BitVec.ofNat 64 (2 ^ k - 1)).toNat = s.toNat / 2 ^ bits % 2 ^ k := by
  have bound : 2 ^ k - 1 < 2 ^ 64 := by
    have power : 2 ^ k ≤ 2 ^ 64 := Nat.pow_le_pow_right (by decide) (Nat.le_of_lt small)
    have positive : 0 < 2 ^ k := Nat.two_pow_pos k
    omega
  rw [BitVec.toNat_and, BitVec.toNat_ofNat, Nat.mod_eq_of_lt bound, BitVec.toNat_ushiftRight,
    Nat.shiftRight_eq_div_pow, Nat.and_two_pow_sub_one_eq_mod]

open Netlist

variable {t t' : Netlist} {g : Given} {w : Width} {sel subSel default : Net} {els els' : Nat → CaseElement}
  {look : Nat → Nat} {first last lels iels oels lim h v d : Nat}

/-- The net is there, with the width W and the value X. -/
structure Carries (t : Netlist) (g : Given) (w : Width) (n : Net) (x : Nat) : Prop where
  valid : t.ValidNet n
  width : t.getWidth n = w
  value : t.Evaluates g n x

theorem Carries.extends {n : Net} {x : Nat} (carries : Carries t g w n x) (extension : Extends t t') (sound : t.Sound) :
    Carries t' g w n x :=
  ⟨extension.valid carries.valid, (extension.width n carries.valid).trans carries.width,
    carries.value.extends extension sound carries.valid⟩

/-- The elements from A up to B are sorted multiples of H below LIM, and each has the value that is expected for its choice and
the bits of the selector below H. -/
structure Sorted (t : Netlist) (g : Given) (w : Width) (look : Nat → Nat) (v lim h : Nat) (els : Nat → CaseElement)
    (a b : Nat) : Prop where
  sorted : ∀ j k, a ≤ j → j < k → k < b → (els j).sel < (els k).sel
  below : ∀ j, a ≤ j → j < b → (els j).sel.toNat < lim
  multiple : ∀ j, a ≤ j → j < b → h ∣ (els j).sel.toNat
  net : ∀ j, a ≤ j → j < b → Carries t g w (els j).val (look ((els j).sel.toNat + v % h))

/-- No element from A up to B is that of X. -/
def Missing (els : Nat → CaseElement) (h a b x : Nat) : Prop :=
  ∀ j, a ≤ j → j < b → (els j).sel.toNat ≠ x / h * h

theorem Sorted.apart {a b j k : Nat} (sorted : Sorted t g w look v lim h els a b) (low : a ≤ j) (less : j < k) (high : k < b) :
    (els j).sel.toNat + h ≤ (els k).sel.toNat := by
  have order : (els j).sel.toNat < (els k).sel.toNat := sorted.sorted j k low less high
  obtain ⟨p, isP⟩ := sorted.multiple j low (by omega)
  obtain ⟨q, isQ⟩ := sorted.multiple k (by omega) high
  rw [isP, isQ] at order ⊢
  exact Nat.mul_le_mul_left h (Nat.lt_of_mul_lt_mul_left order)

/-- What the group is filled from: the elements from IELS on are in order, those that do not leave the group have their
place in it, and after K of them there are none of the group. -/
structure Fills (level : CaseLevel) (els : Nat → CaseElement) (lels : Nat) (sGroup : BitVec 64) (P : Nat → Net → Prop)
    (base n h k iels : Nat) : Prop where
  bound : iels ≤ lels + 1
  order : ∀ i j, iels ≤ i → i ≤ j → j ≤ lels → (els i).sel.toNat ≤ (els j).sel.toNat
  leaves : ∀ j, iels ≤ j → j ≤ lels → (level.leaves (els j).sel sGroup = true ↔ base + n * h ≤ (els j).sel.toNat)
  place : ∀ j, iels ≤ j → j ≤ lels → (els j).sel.toNat < base + n * h →
    (els j).sel.toNat = base + level.elIdx (els j).sel * h ∧ P (level.elIdx (els j).sel) (els j).val
  room : ∀ j, iels ≤ j → j ≤ lels → base + n * h ≤ (els j).sel.toNat + (k - (j - iels)) * h

theorem Fills.stops {level : CaseLevel} {sGroup : BitVec 64} {P : Nat → Net → Prop} {base n k : Nat} {nets : Nat → Net}
    (positive : 0 < h) (fills : Fills level els lels sGroup P base n h k iels)
    (pending : ∀ idx < n, P idx (nets idx) ∨ ∃ j, iels ≤ j ∧ j ≤ lels ∧ (els j).sel.toNat = base + idx * h)
    (none : ∀ j, iels ≤ j → j ≤ lels → base + n * h ≤ (els j).sel.toNat) :
    (∀ idx < n, P idx (nets idx)) ∧ iels ≤ iels ∧ iels ≤ lels + 1 ∧
      (∀ j, iels ≤ j → j < iels → (els j).sel.toNat < base + n * h) ∧
      ∀ j, iels ≤ j → j ≤ lels → base + n * h ≤ (els j).sel.toNat := by
  refine ⟨fun idx small => (pending idx small).resolve_right ?_, Nat.le_refl iels, fills.bound, fun j low high => ?_,
    none⟩
  swap
  · exact absurd low (Nat.not_le.mpr high)
  rintro ⟨j, low, high, same⟩
  have beyond := none j low high
  have inside : idx * h < n * h := Nat.mul_lt_mul_of_pos_right small positive
  omega

theorem fillGroup_spec {level : CaseLevel} {sGroup : BitVec 64} {P : Nat → Net → Prop} {base n k : Nat} {nets : Nat → Net}
    (positive : 0 < h) (fills : Fills level els lels sGroup P base n h k iels)
    (pending : ∀ idx < n, P idx (nets idx) ∨ ∃ j, iels ≤ j ∧ j ≤ lels ∧ (els j).sel.toNat = base + idx * h) :
    (∀ idx < n, P idx ((fillGroup level els lels sGroup k nets iels).1 idx)) ∧
      iels ≤ (fillGroup level els lels sGroup k nets iels).2 ∧
      (fillGroup level els lels sGroup k nets iels).2 ≤ lels + 1 ∧
      (∀ j, iels ≤ j → j < (fillGroup level els lels sGroup k nets iels).2 → (els j).sel.toNat < base + n * h) ∧
      ∀ j, (fillGroup level els lels sGroup k nets iels).2 ≤ j → j ≤ lels → base + n * h ≤ (els j).sel.toNat := by
  induction k generalizing nets iels with
  | zero =>
    refine fills.stops positive pending fun j low high => ?_
    have room := fills.room j low high
    rwa [Nat.zero_sub, Nat.zero_mul, Nat.add_zero] at room
  | succ k ih =>
    unfold fillGroup
    by_cases atEnd : lels < iels
    · rw [if_pos atEnd]
      exact fills.stops positive pending fun j low high => by omega
    rw [if_neg atEnd]
    have inside : iels ≤ lels := Nat.le_of_not_lt atEnd
    by_cases leaves : level.leaves (els iels).sel sGroup = true
    · rw [if_pos leaves]
      have beyond := (fills.leaves iels (Nat.le_refl iels) inside).mp leaves
      exact fills.stops positive pending fun j low high => beyond.trans (fills.order iels j (Nat.le_refl iels) low high)
    rw [if_neg leaves]
    have small : (els iels).sel.toNat < base + n * h :=
      Nat.lt_of_not_le fun beyond => leaves ((fills.leaves iels (Nat.le_refl iels) inside).mpr beyond)
    obtain ⟨isSel, isNet⟩ := fills.place iels (Nat.le_refl iels) inside small
    have rest : Fills level els lels sGroup P base n h k (iels + 1) := by
      refine ⟨by omega, fun i j low => fills.order i j (by omega), fun j low => fills.leaves j (by omega),
        fun j low => fills.place j (by omega), fun j low high => ?_⟩
      have room := fills.room j (by omega) high
      rwa [show k + 1 - (j - iels) = k - (j - (iels + 1)) by omega] at room
    have pending' : ∀ idx < n, P idx (update nets (level.elIdx (els iels).sel) (els iels).val idx) ∨
        ∃ j, iels + 1 ≤ j ∧ j ≤ lels ∧ (els j).sel.toNat = base + idx * h := by
      intro idx small
      by_cases here : idx = level.elIdx (els iels).sel
      · rw [here, update_self]
        exact .inl isNet
      rw [update_of_ne here]
      refine (pending idx small).imp_right ?_
      rintro ⟨j, low, high, same⟩
      refine ⟨j, Nat.lt_of_le_of_ne low fun first => here ?_, high, same⟩
      rw [← first, isSel] at same
      exact (Nat.eq_of_mul_eq_mul_right positive (Nat.add_left_cancel same)).symm
    obtain ⟨filled, low, high, taken, none⟩ := ih rest pending'
    refine ⟨filled, by omega, high, fun j above => ?_, none⟩
    rcases Nat.eq_or_lt_of_le above with rfl | above
    · exact fun _ => small
    · exact taken j above

theorem mux4_carries {s : Nat} {nets x : Nat → Nat} (sound : t.Sound) (given : g.base ≤ t.lastNet) (positive : w ≠ 0)
    (chosen : Carries t g 2 subSel s) (carries : ∀ idx < 4, Carries t g w (nets idx) (x idx)) :
    ∃ o t', t.buildMux4 subSel (nets 0) (nets 1) (nets 2) (nets 3) = .ok (o, t') ∧ t'.Sound ∧ Extends t t' ∧
      Carries t' g w o (x (s % 4)) := by
  have c0 := carries 0 (by decide)
  have c1 := carries 1 (by decide)
  have c2 := carries 2 (by decide)
  have c3 := carries 3 (by decide)
  obtain ⟨t', run, built⟩ := buildMux4_spec sound chosen.valid c0.valid c1.valid c2.valid c3.valid
    (c0.width ▸ positive) (c1.width.trans c0.width.symm) (c2.width.trans c0.width.symm)
    (c3.width.trans c0.width.symm) chosen.width
  have small : s % 4 < 4 := Nat.mod_lt s (by decide)
  have here : [subSel, nets 0, nets 1, nets 2, nets 3][s % 4 + 1]? = some (nets (s % 4)) := by
    rcases (by omega : s % 4 = 0 ∨ s % 4 = 1 ∨ s % 4 = 2 ∨ s % 4 = 3) with is | is | is | is <;> rw [is] <;> rfl
  refine ⟨_, t', run, built.sound, built.extends_, ⟨Nat.succ_pos _, built.lastNet.ge⟩, built.width.trans c0.width, ?_⟩
  exact built.selects sound given (.inr ⟨rfl, rfl⟩) chosen.valid rfl chosen.value (carries _ small).valid here
    (carries _ small).value

theorem mux2_carries {s : Nat} {nets x : Nat → Nat} (sound : t.Sound) (given : g.base ≤ t.lastNet) (positive : w ≠ 0)
    (chosen : Carries t g 1 subSel s) (carries : ∀ idx < 2, Carries t g w (nets idx) (x idx)) :
    ∃ o t', t.buildMux2 subSel (nets 0) (nets 1) = .ok (o, t') ∧ t'.Sound ∧ Extends t t' ∧
      Carries t' g w o (x (s % 2)) := by
  have c0 := carries 0 (by decide)
  have c1 := carries 1 (by decide)
  obtain ⟨t', run, built⟩ := buildMux2_spec sound chosen.valid c0.valid c1.valid
    (c0.width ▸ positive) (c1.width.trans c0.width.symm) chosen.width
  have small : s % 2 < 2 := Nat.mod_lt s (by decide)
  have here : [subSel, nets 0, nets 1][s % 2 + 1]? = some (nets (s % 2)) := by
    rcases (by omega : s % 2 = 0 ∨ s % 2 = 1) with is | is <;> rw [is] <;> rfl
  refine ⟨_, t', run, built.sound, built.extends_, ⟨Nat.succ_pos _, built.lastNet.ge⟩, built.width.trans c0.width, ?_⟩
  exact built.selects sound given (.inl ⟨rfl, rfl⟩) chosen.valid rfl chosen.value (carries _ small).valid here
    (carries _ small).value

theorem slice_carries {off width x : Nat} (sound : t.Sound) (given : g.base ≤ t.lastNet) (valid : t.ValidNet sel)
    (value : t.Evaluates g sel x) (positive : 0 < width) (room : width + off ≤ t.getWidth sel) :
    ∃ o t', t.buildSlice sel off width = .ok (o, t') ∧ t'.Sound ∧ Extends t t' ∧
      Carries t' g width o (x / 2 ^ off % 2 ^ width) := by
  obtain ⟨t', run, built⟩ := buildSlice_spec sound valid positive room
  exact ⟨_, t', run, built.sound, built.extends_, ⟨Nat.succ_pos _, built.lastNet.ge⟩, built.width,
    built.slices sound given valid value⟩

theorem group_bounds {a q : Nat} (positive : 0 < h) (low : q * (4 * h) ≤ a) :
    (a / (4 * h) = q ↔ a < q * (4 * h) + 4 * h) ∧ (a / (4 * h) = q → h ∣ a → a = q * (4 * h) + a / h % 4 * h) := by
  refine ⟨⟨?_, fun high => Nat.div_eq_of_lt_le low (by rwa [Nat.succ_mul])⟩, ?_⟩
  · rintro rfl
    exact Nat.lt_div_mul_add (by omega)
  rintro rfl ⟨p, rfl⟩
  rw [Nat.mul_comm 4 h, Nat.mul_div_mul_left p 4 positive, Nat.mul_div_cancel_left p positive]
  calc h * p = h * (4 * (p / 4) + p % 4) := by rw [Nat.div_add_mod]
    _ = p / 4 * (h * 4) + p % 4 * h := by ring

theorem div_group (positive : 0 < h) (x : Nat) : x / h * h / (4 * h) = x / (4 * h) := by
  rw [Nat.mul_comm 4 h, ← Nat.div_div_eq_div_mul, ← Nat.div_div_eq_div_mul, Nat.mul_div_cancel _ positive]

theorem Sorted.spread {a b j : Nat} (sorted : Sorted t g w look v lim h els a b) (low : a ≤ j) (n : Nat) :
    j + n < b → (els j).sel.toNat + n * h ≤ (els (j + n)).sel.toNat := by
  induction n with
  | zero => simp
  | succ n ih =>
    intro high
    have before := ih (by omega)
    have next := sorted.apart (j := j + n) (k := j + (n + 1)) (by omega) (by omega) high
    rw [Nat.succ_mul]
    omega

theorem Sorted.fills {level : CaseLevel} {sGroup : BitVec 64} {base n : Nat}
    (sorted : Sorted t g w look v lim h els iels (lels + 1)) (bound : iels ≤ lels + 1)
    (low : ∀ j, iels ≤ j → j ≤ lels → base ≤ (els j).sel.toNat)
    (leaves : ∀ j, iels ≤ j → j ≤ lels → (level.leaves (els j).sel sGroup = true ↔ base + n * h ≤ (els j).sel.toNat))
    (place : ∀ j, iels ≤ j → j ≤ lels → (els j).sel.toNat < base + n * h →
      (els j).sel.toNat = base + level.elIdx (els j).sel * h) :
    Fills level els lels sGroup (fun idx net => Carries t g w net (look (base + idx * h + v % h))) base n h n iels := by
  refine ⟨bound, fun i j above less high => ?_, leaves, fun j above high small => ?_, fun j above high => ?_⟩
  · rcases Nat.eq_or_lt_of_le less with rfl | less
    · exact Nat.le_refl _
    · exact Nat.le_trans (Nat.le_add_right _ h) (sorted.apart above less (by omega))
  · have isSel := place j above high small
    have net := sorted.net j above (by omega)
    rw [isSel] at net
    exact ⟨isSel, net⟩
  · have first := low iels (Nat.le_refl iels) (by omega)
    have spread := sorted.spread (Nat.le_refl iels) (j - iels) (by omega)
    rw [show iels + (j - iels) = j by omega] at spread
    have parts : n * h ≤ (j - iels) * h + (n - (j - iels)) * h := by
      rw [← Nat.add_mul]
      exact Nat.mul_le_mul_right h (by omega)
    omega

/-- The loop of a level of `Mux4`, from IELS on. -/
theorem mux4Loop_spec {i fuel : Nat} (isH : h = 2 ^ (2 * (i - 1))) (step : 0 < i) (sound : t.Sound)
    (given : g.base ≤ t.lastNet) (positive : w ≠ 0) (chosen : Carries t g 2 subSel (v / h % 4))
    (isDefault : Carries t g w default d) (before : first ≤ oels) (behind : oels ≤ iels) (bound : iels ≤ lels + 1)
    (nonempty : first < oels ∨ iels ≤ lels) (enough : lels + 2 ≤ fuel + iels)
    (done : Sorted t g w look v lim (4 * h) els first oels) (rest : Sorted t g w look v lim h els iels (lels + 1))
    (apart : ∀ j k, first ≤ j → j < oels → iels ≤ k → k ≤ lels → (els j).sel.toNat + 4 * h ≤ (els k).sel.toNat)
    (missing : ∀ x, Missing els (4 * h) first oels x → Missing els h iels (lels + 1) x → look x = d) :
    ∃ lels' els' t', groupLoop (mux4Level i subSel) default lels fuel iels oels els t = .ok (lels', els', t') ∧
      t'.Sound ∧ Extends t t' ∧ first ≤ lels' ∧ Sorted t' g w look v lim (4 * h) els' first (lels' + 1) ∧
      ∀ x, Missing els' (4 * h) first (lels' + 1) x → look x = d := by
  have some : 0 < h := isH ▸ Nat.two_pow_pos _
  have isMask : 2 ^ (2 * i) = 4 * h := by
    rw [isH, show 2 * i = 2 * (i - 1) + 2 by omega, Nat.pow_add]
    omega
  induction fuel generalizing iels oels els t with
  | zero => omega
  | succ fuel ih =>
    unfold groupLoop
    by_cases inside : iels ≤ lels
    swap
    · rw [if_neg inside]
      have some : first < oels := nonempty.resolve_right inside
      refine ⟨oels - 1, els, t, rfl, sound, .refl t, by omega, ?_, fun x none => missing x ?_ fun j low high => by omega⟩
      · rwa [Nat.sub_add_cancel (by omega)]
      · rwa [Nat.sub_add_cancel (by omega)] at none
    rw [if_pos inside]
    obtain ⟨q, isQ⟩ : ∃ q, (els iels).sel.toNat / (4 * h) = q := ⟨_, rfl⟩
    have isGroup : ((mux4Level i subSel).group (els iels).sel).toNat = q * (4 * h) := by
      rw [← isQ, ← isMask]
      exact masked_toNat _ _
    generalize (mux4Level i subSel).group (els iels).sel = sGroup at isGroup
    have low : ∀ j, iels ≤ j → j ≤ lels → q * (4 * h) ≤ (els j).sel.toNat := by
      intro j above high
      have first : q * (4 * h) ≤ (els iels).sel.toNat := isQ ▸ Nat.div_mul_le_self _ _
      rcases Nat.eq_or_lt_of_le above with rfl | above
      · exact first
      · exact first.trans (Nat.le_of_add_right_le (rest.apart (Nat.le_refl iels) above (by omega)))
    have leaves : ∀ j, iels ≤ j → j ≤ lels → ((mux4Level i subSel).leaves (els j).sel sGroup = true ↔
        q * (4 * h) + 4 * h ≤ (els j).sel.toNat) := by
      intro j above high
      show decide (masked (els j).sel (2 * i) ≠ sGroup) = true ↔ _
      rw [decide_eq_true_iff, ← Nat.not_lt, ← (group_bounds some (low j above high)).1]
      refine not_congr (BitVec.toNat_inj.symm.trans ?_)
      rw [masked_toNat, isGroup, isMask]
      exact Nat.mul_left_inj (by omega)
    have place : ∀ j, iels ≤ j → j ≤ lels → (els j).sel.toNat < q * (4 * h) + 4 * h →
        (els j).sel.toNat = q * (4 * h) + (mux4Level i subSel).elIdx (els j).sel * h := by
      intro j above high small
      have isIdx : (mux4Level i subSel).elIdx (els j).sel = (els j).sel.toNat / h % 4 := by
        rw [isH]
        exact index_toNat _ _ 2 (by decide)
      rw [isIdx]
      have bounds := group_bounds some (low j above high)
      exact bounds.2 (bounds.1.mpr small) (rest.multiple j above (by omega))
    have pending : ∀ idx < 4, Carries t g w default (look (q * (4 * h) + idx * h + v % h)) ∨
        ∃ j, iels ≤ j ∧ j ≤ lels ∧ (els j).sel.toNat = q * (4 * h) + idx * h := by
      intro idx small
      by_cases there : ∃ j, iels ≤ j ∧ j ≤ lels ∧ (els j).sel.toNat = q * (4 * h) + idx * h
      · exact .inr there
      have isPlace : (q * (4 * h) + idx * h + v % h) / h * h = q * (4 * h) + idx * h := by
        rw [show q * (4 * h) + idx * h + v % h = v % h + h * (4 * q + idx) by ring, Nat.add_mul_div_left _ _ some,
          Nat.div_eq_of_lt (Nat.mod_lt v some)]
        ring
      have isFirst : (q * (4 * h) + idx * h + v % h) / (4 * h) = q := by
        have inner : idx * h + v % h < 4 * h := by
          have less := Nat.mod_lt v some
          have most : idx * h ≤ 3 * h := Nat.mul_le_mul_right h (by omega)
          omega
        rw [show q * (4 * h) + idx * h + v % h = idx * h + v % h + 4 * h * q by ring,
          Nat.add_mul_div_left _ _ (by omega), Nat.div_eq_of_lt inner, Nat.zero_add]
      have none := missing (q * (4 * h) + idx * h + v % h) (fun j above high => ?_) fun j above high => ?_
      · rw [none]
        exact .inl isDefault
      · rw [isFirst]
        have beyond := apart j iels above high (Nat.le_refl iels) inside
        have first := (group_bounds some (low iels (Nat.le_refl iels) inside)).1.mp isQ
        omega
      · rw [isPlace]
        exact fun same => there ⟨j, above, by omega, same⟩
    obtain ⟨filled, above, high, taken, none⟩ := fillGroup_spec some (rest.fills bound low leaves place) pending
    obtain ⟨o, t₁, run, sound₁, extension, carries⟩ := mux4_carries sound given positive chosen filled
    have isLook : q * (4 * h) + v / h % 4 % 4 * h + v % h = sGroup.toNat + v % (4 * h) := by
      rw [isGroup, Nat.mod_mod, Nat.mul_comm 4 h, Nat.mod_mul]
      ring
    rw [isLook] at carries
    have small := (group_bounds some (low iels (Nat.le_refl iels) inside)).1.mp isQ
    generalize isFilling : fillGroup (mux4Level i subSel) els lels sGroup 4 (fun _ => default) iels = filling
      at above high taken none run
    have later : iels < filling.2 := by
      refine Nat.lt_of_le_of_ne above fun same => ?_
      have beyond := none iels (Nat.le_of_eq same.symm) inside
      omega
    -- The group is behind the elements that are left.
    have others : ∀ j, j ≠ oels → update els oels ⟨sGroup, o⟩ j = els j :=
      fun j different => update_of_ne different _ _
    have self : update els oels ⟨sGroup, o⟩ oels = ⟨sGroup, o⟩ := update_self _ _ _
    obtain ⟨els₁, isEls⟩ : ∃ els₁, update els oels ⟨sGroup, o⟩ = els₁ := ⟨_, rfl⟩
    rw [isEls] at others self
    have aside : ∀ j, filling.2 ≤ j → els₁ j = els j := fun j left => others j (by omega)
    have back : ∀ j, first ≤ j → j < oels + 1 → j < oels ∧ els₁ j = els j ∨ j = oels ∧ els₁ j = ⟨sGroup, o⟩ := by
      intro j _ bound
      rcases Nat.lt_succ_iff_lt_or_eq.mp bound with old | rfl
      · exact .inl ⟨old, others j (Nat.ne_of_lt old)⟩
      · exact .inr ⟨rfl, self⟩
    have done₁ : Sorted t₁ g w look v lim (4 * h) els₁ first (oels + 1) := by
      refine ⟨fun j k from' less to' => ?_, fun j from' to' => ?_, fun j from' to' => ?_, fun j from' to' => ?_⟩
      · obtain ⟨old, isJ⟩ := (back j from' (by omega)).resolve_right fun new => by omega
        rw [isJ]
        rcases back k (by omega) to' with ⟨old', isK⟩ | ⟨-, isK⟩
        · rw [isK]
          exact done.sorted j k from' less old'
        · rw [isK, BitVec.lt_def, isGroup]
          have beyond := apart j iels from' old (Nat.le_refl iels) inside
          omega
      · rcases back j from' to' with ⟨old, isJ⟩ | ⟨-, isJ⟩
        · rw [isJ]
          exact done.below j from' old
        · rw [isJ, isGroup]
          exact (low iels (Nat.le_refl iels) inside).trans_lt (rest.below iels (Nat.le_refl iels) (by omega))
      · rcases back j from' to' with ⟨old, isJ⟩ | ⟨-, isJ⟩
        · rw [isJ]
          exact done.multiple j from' old
        · rw [isJ, isGroup]
          exact Nat.dvd_mul_left _ q
      · rcases back j from' to' with ⟨old, isJ⟩ | ⟨-, isJ⟩
        · rw [isJ]
          exact (done.net j from' old).extends extension sound
        · rw [isJ]
          exact carries
    have rest₁ : Sorted t₁ g w look v lim h els₁ filling.2 (lels + 1) := by
      refine ⟨fun j k from' less to' => ?_, fun j from' to' => ?_, fun j from' to' => ?_, fun j from' to' => ?_⟩
      · rw [aside j from', aside k (by omega)]
        exact rest.sorted j k (by omega) less to'
      · rw [aside j from']
        exact rest.below j (by omega) to'
      · rw [aside j from']
        exact rest.multiple j (by omega) to'
      · rw [aside j from']
        exact (rest.net j (by omega) to').extends extension sound
    have apart₁ : ∀ j k, first ≤ j → j < oels + 1 → filling.2 ≤ k → k ≤ lels →
        (els₁ j).sel.toNat + 4 * h ≤ (els₁ k).sel.toNat := by
      intro j k from' to' left right
      rw [aside k left]
      rcases back j from' to' with ⟨old, isJ⟩ | ⟨-, isJ⟩
      · rw [isJ]
        exact apart j k from' old (by omega) right
      · rw [isJ, isGroup]
        exact none k left right
    have missing₁ : ∀ x, Missing els₁ (4 * h) first (oels + 1) x → Missing els₁ h filling.2 (lels + 1) x → look x = d := by
      intro x behind left
      refine missing x (fun j from' to' => ?_) fun j from' to' => ?_
      · have other := behind j from' (by omega)
        rwa [others j (by omega)] at other
      by_cases gone : j < filling.2
      · intro same
        have isQ' : x / (4 * h) = q := by
          rw [← div_group some x, ← same]
          exact (group_bounds some (low j from' (by omega))).1.mpr (taken j from' gone)
        refine behind oels before (Nat.lt_succ_self oels) ?_
        rw [self, isQ', isGroup]
      · have other := left j (Nat.le_of_not_lt gone) to'
        rwa [aside j (Nat.le_of_not_lt gone)] at other
    have enough' : lels + 2 ≤ fuel + filling.2 := by omega
    obtain ⟨lels', els', t', run', sound', extension', least, sorted', missing'⟩ := ih sound₁
      (given.trans extension.lastNet) (chosen.extends extension sound) (isDefault.extends extension sound)
      (by omega) (by omega) high (.inl (by omega)) enough' done₁ rest₁ apart₁ missing₁
    refine ⟨lels', els', t', ?_, sound', extension.trans extension', least, sorted', missing'⟩
    show ((mux4Level i subSel).build
      (fillGroup (mux4Level i subSel) els lels sGroup 4 (fun _ => default) iels).1 t >>= _) = _
    rw [isFilling]
    show (t.buildMux4 subSel (filling.1 0) (filling.1 1) (filling.1 2) (filling.1 3) >>= _) = _
    rw [run, ← run', ← isEls, ← isFilling]
    rfl

theorem Sorted.extends {a b : Nat} (sorted : Sorted t g w look v lim h els a b) (extension : Extends t t') (sound : t.Sound) :
    Sorted t' g w look v lim h els a b :=
  ⟨sorted.sorted, sorted.below, sorted.multiple, fun j low high => (sorted.net j low high).extends extension sound⟩

/-- The levels of `Mux4`, from the one of I on. -/
theorem mux4Levels_spec (n : Nat) {i : Nat} (step : 0 < i) (room : 2 * (i - 1 + n) ≤ t.getWidth sel) (sound : t.Sound)
    (given : g.base ≤ t.lastNet) (positive : w ≠ 0) (selector : Carries t g (t.getWidth sel) sel v)
    (isDefault : Carries t g w default d) (some : first ≤ lels)
    (sorted : Sorted t g w look v lim (2 ^ (2 * (i - 1))) els first (lels + 1))
    (missing : ∀ x, Missing els (2 ^ (2 * (i - 1))) first (lels + 1) x → look x = d) :
    ∃ lels' els' t', mux4Levels sel default first (List.range' i n) lels els t = .ok (lels', els', t') ∧
      t'.Sound ∧ Extends t t' ∧ first ≤ lels' ∧ Sorted t' g w look v lim (2 ^ (2 * (i - 1 + n))) els' first (lels' + 1) ∧
      ∀ x, Missing els' (2 ^ (2 * (i - 1 + n))) first (lels' + 1) x → look x = d := by
  induction n generalizing i lels els t with
  | zero => exact ⟨lels, els, t, rfl, sound, .refl t, some, sorted, missing⟩
  | succ n ih =>
    obtain ⟨subSel, t₁, run, sound₁, extension, chosen⟩ := @slice_carries t g sel (2 * (i - 1)) 2 v sound given
      selector.valid selector.value (by decide) (by omega)
    have next : 4 * 2 ^ (2 * (i - 1)) = 2 ^ (2 * (i + 1 - 1)) := by
      rw [show 2 * (i + 1 - 1) = 2 * (i - 1) + 2 by omega, Nat.pow_add]
      omega
    obtain ⟨lels₂, els₂, t₂, run₂, sound₂, extension₂, some₂, sorted₂, missing₂⟩ :=
      @mux4Loop_spec t₁ g w subSel default els look first lels first first lim _ v d i (lels + 2) rfl step sound₁
        (given.trans extension.lastNet) positive chosen (isDefault.extends extension sound) (Nat.le_refl first)
        (Nat.le_refl first) (by omega) (.inr some) (by omega)
        ⟨fun j k _ _ _ => by omega, fun j _ _ => by omega, fun j _ _ => by omega, fun j _ _ => by omega⟩
        (sorted.extends extension sound) (fun j k _ _ _ _ => by omega) fun x _ none => missing x none
    rw [next] at sorted₂ missing₂
    have whole := extension.trans extension₂
    have selector₂ := selector.extends whole sound
    have width : t₂.getWidth sel = t.getWidth sel := selector₂.width
    rw [← width] at selector₂
    obtain ⟨lels', els', t', run', sound', extension', some', sorted', missing'⟩ := ih (i := i + 1) (Nat.succ_pos i)
      (by rw [width]; omega) sound₂ (given.trans whole.lastNet) selector₂ (isDefault.extends whole sound) some₂ sorted₂ missing₂
    rw [show i + 1 - 1 + n = i - 1 + (n + 1) by omega] at sorted' missing'
    refine ⟨lels', els', t', ?_, sound', whole.trans extension', some', sorted', missing'⟩
    show (t.buildSlice sel (2 * (i - 1)) 2 >>= _) = _
    rw [run]
    show (groupLoop (mux4Level i subSel) default lels (lels + 2) first first els t₁ >>= _) = _
    rw [run₂]
    exact run'

theorem lastLevel_spec (sound : t.Sound) (given : g.base ≤ t.lastNet) (positive : w ≠ 0)
    (selector : Carries t g (t.getWidth sel) sel v) (fits : v < 2 ^ t.getWidth sel) (isDefault : Carries t g w default d)
    (some : first ≤ lels)
    (sorted : Sorted t g w look v (2 ^ t.getWidth sel) (2 ^ (2 * (t.getWidth sel / 2))) els first (lels + 1))
    (missing : ∀ x, Missing els (2 ^ (2 * (t.getWidth sel / 2))) first (lels + 1) x → look x = d) :
    ∃ els' t', lastLevel sel default first lels els t = .ok (first, els', t') ∧ t'.Sound ∧ Extends t t' ∧
      Carries t' g w (els' first).val (look v) := by
  obtain ⟨wd, isWd⟩ : ∃ wd : Nat, t.getWidth sel = wd := ⟨_, rfl⟩
  rw [isWd] at selector fits sorted missing
  unfold lastLevel
  rw [isWd]
  by_cases odd : wd % 2 = 1
  swap
  · rw [if_neg odd, show 2 * (wd / 2) = wd by omega] at *
    have zero : ∀ j, first ≤ j → j < lels + 1 → (els j).sel.toNat = 0 := fun j low high =>
      Nat.eq_zero_of_dvd_of_lt (sorted.multiple j low high) (sorted.below j low high)
    have one : lels = first := by
      by_contra different
      have apart : (els first).sel.toNat < (els lels).sel.toNat :=
        sorted.sorted first lels (Nat.le_refl first) (by omega) (Nat.lt_succ_self lels)
      rw [zero lels some (Nat.lt_succ_self lels)] at apart
      exact absurd apart (Nat.not_lt_zero _)
    have net := sorted.net first (Nat.le_refl first) (by omega)
    rw [zero first (Nat.le_refl first) (by omega), Nat.zero_add, Nat.mod_eq_of_lt fits] at net
    exact ⟨els, t, by rw [one]; rfl, sound, .refl t, net⟩
  · rw [if_pos odd, show 2 * (wd / 2) = wd - 1 by omega] at *
    have double : 2 ^ wd = 2 * 2 ^ (wd - 1) := by
      have split : wd = wd - 1 + 1 := by omega
      calc 2 ^ wd = 2 ^ (wd - 1 + 1) := by rw [← split]
        _ = 2 * 2 ^ (wd - 1) := Nat.pow_succ'
    rw [double] at sorted fits
    have isPositive : 0 < 2 ^ (wd - 1) := Nat.two_pow_pos _
    obtain ⟨subSel, t₁, run, sound₁, extension, chosen⟩ := @slice_carries t g sel (wd - 1) 1 v sound given
      selector.valid selector.value Nat.one_pos (by rw [isWd]; omega)
    obtain ⟨h, isH⟩ : ∃ h, 2 ^ (wd - 1) = h := ⟨_, rfl⟩
    rw [isH] at sorted missing fits isPositive chosen
    generalize isGroup : (mux2Level wd subSel).group (els first).sel = sGroup
    have below : ∀ j, first ≤ j → j ≤ lels → (els j).sel.toNat < 0 + 2 * h := fun j low high => by
      rw [Nat.zero_add]
      exact sorted.below j low (by omega)
    have fills := @Sorted.fills t g w els look lels first (2 * h) h v (mux2Level wd subSel) sGroup 0 2 sorted (by omega)
      (fun j _ _ => Nat.zero_le _) (fun j low high => iff_of_false Bool.false_ne_true (Nat.not_le.mpr (below j low high)))
      fun j low high _ => by
        have isIdx : (mux2Level wd subSel).elIdx (els j).sel = (els j).sel.toNat / h % 2 := by
          rw [← isH]
          exact index_toNat _ _ 1 (by decide)
        obtain ⟨p, isP⟩ := sorted.multiple j low (by omega)
        have small := sorted.below j low (by omega)
        rw [isP] at small
        have small : p < 2 := Nat.lt_of_mul_lt_mul_left (by rwa [Nat.mul_comm 2 h] at small)
        rw [isIdx, isP, Nat.mul_div_cancel_left p isPositive, Nat.mod_eq_of_lt small, Nat.zero_add, Nat.mul_comm]
    have pending : ∀ idx < 2, Carries t g w default (look (0 + idx * h + v % h)) ∨
        ∃ j, first ≤ j ∧ j ≤ lels ∧ (els j).sel.toNat = 0 + idx * h := by
      intro idx _
      by_cases there : ∃ j, first ≤ j ∧ j ≤ lels ∧ (els j).sel.toNat = 0 + idx * h
      · exact .inr there
      have none := missing (0 + idx * h + v % h) fun j low high same => there ⟨j, low, by omega, ?_⟩
      · rw [none]
        exact .inl isDefault
      · rw [same, Nat.zero_add, Nat.add_comm, Nat.add_mul_div_right _ _ isPositive,
          Nat.div_eq_of_lt (Nat.mod_lt v isPositive), Nat.zero_add]
    obtain ⟨filled, above, high, taken, none⟩ := fillGroup_spec isPositive fills pending
    obtain ⟨o, t₂, run₂, sound₂, extension₂, carries⟩ := mux2_carries sound₁ (given.trans extension.lastNet) positive
      chosen fun idx small => (filled idx small).extends extension sound
    have isLook : 0 + v / h % 2 ^ 1 % 2 * h + v % h = v := by
      have small : v / h < 2 := Nat.div_lt_of_lt_mul (by rwa [Nat.mul_comm])
      rw [Nat.zero_add, Nat.pow_one, Nat.mod_mod, Nat.mod_eq_of_lt small, Nat.div_add_mod']
    rw [isLook] at carries
    generalize isFilling : fillGroup (mux2Level wd subSel) els lels sGroup 2 (fun _ => default) first = filling
      at filled above high taken none run₂
    have gone : ¬filling.2 ≤ lels := fun left =>
      absurd (none filling.2 (Nat.le_refl _) left) (Nat.not_le.mpr (below filling.2 above left))
    refine ⟨update els first ⟨sGroup, o⟩, t₂, ?_, sound₂, extension.trans extension₂, ?_⟩
    · show (t.buildSlice sel (wd - 1) 1 >>= _) = _
      rw [run]
      show groupLoop (mux2Level wd subSel) default lels (lels + 2) first first els t₁ = _
      unfold groupLoop
      rw [if_pos some, isGroup]
      show ((mux2Level wd subSel).build
        (fillGroup (mux2Level wd subSel) els lels sGroup 2 (fun _ => default) first).1 t₁ >>= _) = _
      rw [isFilling]
      show (t₁.buildMux2 subSel (filling.1 0) (filling.1 1) >>= _) = _
      rw [run₂]
      show groupLoop (mux2Level wd subSel) default lels (lels + 1)
        (fillGroup (mux2Level wd subSel) els lels sGroup 2 (fun _ => default) first).2 (first + 1) _ t₂ = _
      rw [isFilling]
      unfold groupLoop
      exact if_neg gone
    · rw [update_self]
      exact carries

/-- The multiplexer tree has, for every value of the selector, the value of the element that is equal to it, and that of
the default where there is none. -/
theorem synthCase_selects {values : Nat → Nat} (sound : t.Sound) (given : g.base ≤ t.lastNet)
    (selector : t.ValidNet sel) (isValue : t.Evaluates g sel v) (fits : v < 2 ^ t.getWidth sel)
    (sorted : ∀ j k, first ≤ j → j < k → k ≤ last → (els j).sel < (els k).sel)
    (inside : ∀ j, first ≤ j → j ≤ last → (els j).sel.toNat < 2 ^ t.getWidth sel) (positive : w ≠ 0)
    (nets : ∀ j, first ≤ j → j ≤ last → Carries t g w (els j).val (values j)) (isDefault : Carries t g w default d) :
    ∃ res t', synthCase t sel els first last default = .ok (res, t') ∧ t'.Sound ∧ Extends t t' ∧
      (∀ j, first ≤ j → j ≤ last → (els j).sel.toNat = v → t'.Evaluates g res (values j)) ∧
      ((∀ j, first ≤ j → j ≤ last → (els j).sel.toNat ≠ v) → t'.Evaluates g res d) := by
  classical
  unfold synthCase
  by_cases empty : last < first
  · rw [if_pos empty]
    exact ⟨default, t, rfl, sound, .refl t, fun j low high => by omega, fun _ => isDefault.value⟩
  rw [if_neg empty]
  -- What is expected for a value of the selector.
  obtain ⟨look, found, other⟩ : ∃ look : Nat → Nat,
      (∀ j, first ≤ j → j ≤ last → look (els j).sel.toNat = values j) ∧
      ∀ x, (∀ j, first ≤ j → j ≤ last → (els j).sel.toNat ≠ x) → look x = d := by
    refine ⟨fun x => if there : ∃ j, first ≤ j ∧ j ≤ last ∧ (els j).sel.toNat = x then values there.choose else d,
      fun j low high => ?_, fun x none => dif_neg fun ⟨j, low, high, same⟩ => none j low high same⟩
    have there : ∃ k, first ≤ k ∧ k ≤ last ∧ (els k).sel.toNat = (els j).sel.toNat := ⟨j, low, high, rfl⟩
    obtain ⟨low', high', same⟩ := there.choose_spec
    refine (dif_pos there).trans (congrArg values ?_)
    rcases Nat.lt_trichotomy there.choose j with less | same | less
    · exact absurd same (Nat.ne_of_lt (sorted _ j low' less high))
    · exact same
    · exact absurd same (Nat.ne_of_gt (sorted j _ low less high'))
  have start : Sorted t g w look v (2 ^ t.getWidth sel) (2 ^ (2 * (1 - 1))) els first (last + 1) := by
    refine ⟨fun j k low less high => sorted j k low less (by omega), fun j low high => inside j low (by omega),
      fun j low high => one_dvd _, fun j low high => ?_⟩
    rw [show v % 2 ^ (2 * (1 - 1)) = 0 from Nat.mod_one v, Nat.add_zero, found j low (by omega)]
    exact nets j low (by omega)
  obtain ⟨lels₁, els₁, t₁, run₁, sound₁, extension₁, some₁, sorted₁, missing₁⟩ :=
    @mux4Levels_spec t g w sel default els look first last _ v d (t.getWidth sel / 2) 1 Nat.one_pos (by omega) sound given
      positive ⟨selector, rfl, isValue⟩ isDefault (by omega) start fun x none => other x fun j low high same =>
        none j low (by omega) (by rw [same]; simp)
  have width : t₁.getWidth sel = t.getWidth sel := extension₁.width sel selector
  rw [Nat.sub_self, Nat.zero_add, ← width] at sorted₁ missing₁
  obtain ⟨els₂, t₂, run₂, sound₂, extension₂, carries⟩ := lastLevel_spec sound₁ (given.trans extension₁.lastNet) positive
    ⟨extension₁.valid selector, rfl, isValue.extends extension₁ sound selector⟩ (by rwa [width])
    (isDefault.extends extension₁ sound) some₁ sorted₁ missing₁
  refine ⟨(els₂ first).val, t₂, ?_, sound₂, extension₁.trans extension₂, fun j low high same => ?_, fun none => ?_⟩
  · rw [run₁]
    show (lastLevel sel default first lels₁ els₁ t₁ >>= _) = _
    rw [run₂]
    show (check (first = first) >>= _) = _
    rw [check_of rfl]
    rfl
  · rw [← found j low high, same]
    exact carries.value
  · rw [← other v none]
    exact carries.value

/-- The choices 1, 4 and 6 of a selector of three bits that has the value 4. -/
theorem synthCase_selects_four : ∃ res t', synthCase (outputsOf [3, 8, 8, 8, 8]) 1
      (fun k => ⟨[1, 4, 6].getD k 0, k + 2⟩) 0 2 5 = .ok (res, t') ∧
    t'.Evaluates ⟨5, fun n => if n = 1 then 4 else 10 * n, fun _ _ _ => 0, fun _ _ _ _ => 0⟩ res 30 := by
  obtain ⟨res, t', run, -, -, chosen, -⟩ := @synthCase_selects (outputsOf [3, 8, 8, 8, 8])
    ⟨5, fun n => if n = 1 then 4 else 10 * n, fun _ _ _ => 0, fun _ _ _ _ => 0⟩ 8 1 5
    (fun k => ⟨[1, 4, 6].getD k 0, k + 2⟩) 0 2 4 50 (fun k => 10 * (k + 2)) (sound_outputsOf _) (by decide) (by decide)
    (evaluates_given (by decide)) (by decide)
    (fun j k _ less high => by
      obtain ⟨rfl, rfl⟩ | ⟨rfl, rfl⟩ | ⟨rfl, rfl⟩ : j = 0 ∧ k = 1 ∨ j = 0 ∧ k = 2 ∨ j = 1 ∧ k = 2 := by omega
      all_goals decide)
    (fun j _ high => by
      obtain rfl | rfl | rfl : j = 0 ∨ j = 1 ∨ j = 2 := by omega
      all_goals decide)
    (by decide)
    (fun j _ high => by
      obtain rfl | rfl | rfl : j = 0 ∨ j = 1 ∨ j = 2 := by omega
      all_goals exact ⟨by decide, by decide, evaluates_given (by decide)⟩)
    ⟨by decide, by decide, evaluates_given (by decide)⟩
  exact ⟨res, t', run, chosen 1 (by decide) (by decide) (by decide)⟩

end Ghdl.Synth
