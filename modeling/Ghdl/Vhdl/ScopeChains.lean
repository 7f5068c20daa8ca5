import Mathlib.Data.List.GetD
import Ghdl.Linked.Unlink
import Ghdl.Vhdl.SemScopes

/-!
# Chains of interpretations

Whatever the flags of its cells say, the interpretations of an identifier are one chain, from the last one that was
added down to the first one, and the chains of two identifiers have no cell in common. What is visible is the part of
the chain before the first cell that hides those before it.
-/

namespace Ghdl.SemScopes

open Linked

variable {Iir Id : Type}

section Cells

variable {cells : List (Cell Iir Id)} {f : Cell Iir Id → Cell Iir Id} {n m : Nat}

theorem cellAt_append (l : List (Cell Iir Id)) (inside : n ≤ cells.length) : cellAt (cells ++ l) n = cellAt cells n := by
  cases n with
  | zero => rfl
  | succ n =>
    have left : n < cells.length := inside
    exact List.getD_append cells l _ n left

theorem cellAt_concat (c : Cell Iir Id) : cellAt (cells ++ [c]) (cells.length + 1) = c := by
  simp [cellAt]

theorem cellAt_beyond (outside : cells.length < n) : cellAt cells n = ⟨none, false, true, noInterpretation, none⟩ := by
  cases n with
  | zero => rfl
  | succ n => exact List.getD_eq_default _ _ (Nat.le_of_lt_succ outside)

theorem length_modifyAt : (modifyAt cells n f).length = cells.length := by
  cases n with
  | zero => rfl
  | succ n => simp [modifyAt]

theorem cellAt_modifyAt_self (positive : n ≠ 0) (inside : n ≤ cells.length) :
    cellAt (modifyAt cells n f) n = f (cellAt cells n) := by
  cases n with
  | zero => exact absurd rfl positive
  | succ n =>
    have bound : n < cells.length := inside
    simp [cellAt, modifyAt, List.getD_eq_getElem?_getD, bound]

theorem cellAt_modifyAt_of_ne (different : m ≠ n) : cellAt (modifyAt cells n f) m = cellAt cells m := by
  cases n with
  | zero => rfl
  | succ n =>
    cases m with
    | zero => rfl
    | succ m =>
      have other : n ≠ m := fun same => different (by rw [same])
      simp [cellAt, modifyAt, List.getD_eq_getElem?_getD, other]

theorem cells_ext {cells' : List (Cell Iir Id)} (length : cells'.length = cells.length)
    (same : ∀ n ≤ cells.length, cellAt cells' n = cellAt cells n) : cells' = cells := by
  apply List.ext_getElem length
  intro i inside inside'
  have here := same (i + 1) inside'
  simpa [cellAt, inside, inside'] using here

theorem modifyAt_append (l : List (Cell Iir Id)) (inside : n ≤ cells.length) :
    modifyAt (cells ++ l) n f = modifyAt cells n f ++ l := by
  cases n with
  | zero => rfl
  | succ n =>
    have bound : n < cells.length := inside
    apply List.ext_getElem?
    intro i
    simp only [modifyAt, List.getElem?_append, List.getElem?_modify, List.length_modify]
    by_cases same : n = i
    · have left : i < cells.length := by omega
      simp [same, left]
    · simp [same]

end Cells

/-- The links of the cells. -/
def prevs (cells : List (Cell Iir Id)) (n : Nat) : Nat := (cellAt cells n).prev

namespace Scopes

variable (s : Scopes Iir Id)

/-- The members of a chain up to the first one that hides those before it. -/
def follow : List Nat → List Nat
  | [] => []
  | i :: l => if s.Valid i then i :: (if (s.cell i).prevHidden then [] else follow l) else []

/-- The member is visible, and what is behind it is not hidden. -/
def Open (i : Nat) : Prop := s.Valid i ∧ (s.cell i).prevHidden = false

variable {s} {i : Nat} {l m : List Nat}

theorem follow_append (isOpen : ∀ i ∈ l, s.Open i) : s.follow (l ++ m) = l ++ s.follow m := by
  induction l with
  | nil => rfl
  | cons i l ih =>
    obtain ⟨valid, visible⟩ := isOpen i List.mem_cons_self
    rw [List.cons_append, follow, if_pos valid, if_neg (by rw [visible]; exact Bool.false_ne_true),
      ih fun j inside => isOpen j (List.mem_cons_of_mem i inside)]
    rfl

theorem follow_split (inside : i ∈ s.follow l) :
    ∃ before after, l = before ++ i :: after ∧ (∀ j ∈ before, s.Open j) ∧ s.Valid i := by
  induction l with
  | nil => exact absurd inside List.not_mem_nil
  | cons j l ih =>
    rw [follow] at inside
    split at inside
    · rename_i valid
      rcases List.mem_cons.mp inside with rfl | inside
      · exact ⟨[], l, rfl, fun k inK => absurd inK List.not_mem_nil, valid⟩
      split at inside
      · exact absurd inside List.not_mem_nil
      · rename_i visible
        obtain ⟨before, after, rfl, isOpen, valid'⟩ := ih inside
        refine ⟨j :: before, after, rfl, fun k inK => ?_, valid'⟩
        rcases List.mem_cons.mp inK with rfl | inK
        · exact ⟨valid, by simpa using visible⟩
        · exact isOpen k inK
    · exact absurd inside List.not_mem_nil

theorem follow_mem (isOpen : ∀ j ∈ l, s.Open j) (valid : s.Valid i) : i ∈ s.follow (l ++ i :: m) := by
  rw [follow_append isOpen, follow, if_pos valid]
  exact List.mem_append_right l List.mem_cons_self

theorem follow_eq_append {before after : List Nat} (split : s.follow l = before ++ i :: after) :
    ∃ rest, l = before ++ i :: rest ∧ (∀ j ∈ before, s.Open j) ∧ s.Valid i ∧
      after = if (s.cell i).prevHidden then [] else s.follow rest := by
  induction before generalizing l with
  | nil =>
    cases l with
    | nil => exact absurd split (by simp [follow])
    | cons j l =>
      rw [follow] at split
      split at split
      · rename_i valid
        obtain ⟨rfl, rest⟩ := List.cons.inj split
        exact ⟨l, rfl, fun k inK => absurd inK List.not_mem_nil, valid, rest.symm⟩
      · exact absurd split (by simp)
  | cons k before ih =>
    cases l with
    | nil => exact absurd split (by simp [follow])
    | cons j l =>
      rw [follow] at split
      split at split
      · rename_i valid
        obtain ⟨rfl, rest⟩ := List.cons.inj split
        split at rest
        · exact absurd rest.symm (List.append_ne_nil_of_right_ne_nil before (List.cons_ne_nil i after))
        · rename_i visible
          obtain ⟨tail, rfl, isOpen, valid', isAfter⟩ := ih rest
          refine ⟨tail, rfl, fun k inK => ?_, valid', isAfter⟩
          rcases List.mem_cons.mp inK with rfl | inK
          · exact ⟨valid, by simpa using visible⟩
          · exact isOpen k inK
      · exact absurd split (by simp)

theorem follow_sublist : (s.follow l).Sublist l := by
  induction l with
  | nil => exact List.Sublist.refl _
  | cons i l ih =>
    rw [follow]
    split
    · refine List.Sublist.cons_cons i ?_
      split
      · exact List.nil_sublist l
      · exact ih
    · exact List.nil_sublist _

end Scopes

/-- The tables, and the chain of each identifier. -/
structure View (Iir Id : Type) where
  scopes : Scopes Iir Id
  chain : Id → List Nat

/-- The declaration of the cell can be overloaded. -/
def Plain (nodes : Nodes Iir) (s : Scopes Iir Id) (i : Nat) : Prop :=
  ∃ d, (s.cell i).decl = some d ∧ nodes.isOverloadable d = true

theorem Plain.congr {nodes : Nodes Iir} {s s' : Scopes Iir Id} {i : Nat} (same : (s'.cell i).decl = (s.cell i).decl) :
    Plain nodes s' i ↔ Plain nodes s i := by
  unfold Plain
  rw [same]

/-- The chains are those of the tables. A cell with an overloadable declaration hides those before it only where the
previous one cannot be overloaded. -/
structure View.Holds (nodes : Nodes Iir) (v : View Iir Id) : Prop where
  visits : ∀ id, Visits (prevs v.scopes.interpretations) noInterpretation (v.scopes.nameInfo id) (v.chain id)
  decreasing : ∀ id, (v.chain id).Pairwise (· > ·)
  inside : ∀ id, ∀ i ∈ v.chain id, i ≤ v.scopes.last
  disjoint : ∀ id id' i, i ∈ v.chain id → i ∈ v.chain id' → id = id'
  bounded : ∀ n, prevs v.scopes.interpretations n ≤ v.scopes.last
  first : 1 ≤ v.scopes.firstInterpretation
  reach : v.scopes.firstInterpretation ≤ v.scopes.last + 1
  cut : ∀ id l i j m, v.chain id = l ++ i :: j :: m → (v.scopes.cell i).prevHidden = true → v.scopes.Valid j →
    Plain nodes v.scopes i → ¬ Plain nodes v.scopes j

namespace View

variable {nodes : Nodes Iir} {v : View Iir Id}

section

variable (holds : v.Holds nodes)
include holds

theorem Holds.nodup (id : Id) : (v.chain id).Nodup :=
  (holds.decreasing id).imp fun greater => Nat.ne_of_gt greater

theorem Holds.ne_zero {id : Id} {i : Nat} (inside : i ∈ v.chain id) : i ≠ 0 := by
  have all : ∀ {p l}, Visits (prevs v.scopes.interpretations) noInterpretation p l → ∀ i ∈ l, i ≠ 0 := by
    intro p l visits
    induction l generalizing p with
    | nil => exact fun i inside => absurd inside List.not_mem_nil
    | cons j l ih =>
      intro i inside
      rcases List.mem_cons.mp inside with rfl | inside
      · exact visits.2.1
      · exact ih visits.2.2 i inside
  exact all (holds.visits id) i inside

theorem Holds.nameInfo_eq (id : Id) : v.scopes.nameInfo id = (v.chain id).headD noInterpretation := by
  have visits := holds.visits id
  cases isChain : v.chain id with
  | nil =>
    rw [isChain] at visits
    exact visits
  | cons i l =>
    rw [isChain] at visits
    exact visits.1

theorem Holds.nameInfo_le (id : Id) : v.scopes.nameInfo id ≤ v.scopes.last := by
  rw [holds.nameInfo_eq]
  cases isChain : v.chain id with
  | nil => exact Nat.zero_le _
  | cons i l => exact holds.inside id i (by rw [isChain]; exact List.mem_cons_self)

end

theorem interpretationsFrom_none {s : Scopes Iir Id} (fuel : Nat) : s.interpretationsFrom fuel noInterpretation = [] := by
  cases fuel with
  | zero => rfl
  | succ fuel => exact if_pos rfl

theorem interpretationsFrom_eq {s : Scopes Iir Id} {l : List Nat} {n fuel : Nat}
    (visits : Visits (prevs s.interpretations) noInterpretation n l) (enough : l.length ≤ fuel) :
    s.interpretationsFrom fuel (if s.Valid n then n else noInterpretation) = s.follow l := by
  induction l generalizing n fuel with
  | nil =>
    have isZero : n = noInterpretation := visits
    rw [isZero, ite_self, interpretationsFrom_none]
    rfl
  | cons i l ih =>
    obtain ⟨rfl, positive, rest⟩ := visits
    unfold Scopes.follow
    by_cases valid : s.Valid n
    · obtain ⟨fuel, rfl⟩ := Nat.exists_eq_succ_of_ne_zero (Nat.ne_of_gt (Nat.lt_of_lt_of_le (Nat.succ_pos _) enough))
      rw [if_pos valid, if_pos valid, Scopes.interpretationsFrom, if_neg positive]
      unfold Scopes.getNextInterpretation
      by_cases hidden : (s.cell n).prevHidden = true
      · rw [if_pos (Or.inl hidden), if_pos hidden, interpretationsFrom_none]
      have tail := ih rest (Nat.le_of_succ_le_succ enough)
      rw [if_neg hidden, ← tail]
      by_cases validPrev : s.Valid (s.cell n).prev
      · rw [if_neg (by simp [hidden, validPrev])]
        exact congrArg _ (congrArg _ (if_pos validPrev).symm)
      · rw [if_pos (Or.inr validPrev)]
        exact congrArg _ (congrArg _ (if_neg validPrev).symm)
    · rw [if_neg valid, if_neg valid, interpretationsFrom_none]

theorem length_le_of_decreasing {l : List Nat} {n : Nat} (decreasing : l.Pairwise (· > ·)) (positive : ∀ i ∈ l, i ≠ 0)
    (bound : ∀ i ∈ l, i ≤ n) : l.length ≤ n := by
  induction l generalizing n with
  | nil => exact Nat.zero_le n
  | cons i l ih =>
    obtain ⟨greater, rest⟩ := List.pairwise_cons.mp decreasing
    have head := positive i List.mem_cons_self
    have top := bound i List.mem_cons_self
    have tail := ih (n := i - 1) rest (fun j inside => positive j (List.mem_cons_of_mem i inside)) fun j inside => by
      have less := greater j inside
      omega
    rw [List.length_cons]
    omega

/-- The visible interpretations are the visible part of the chain, unless this starts with a conflict. -/
theorem Holds.visible_eq (holds : v.Holds nodes) (id : Id) :
    v.scopes.visible id = if v.scopes.isConflict (v.scopes.nameInfo id) then [] else v.scopes.follow (v.chain id) := by
  have enough : (v.chain id).length ≤ v.scopes.last :=
    length_le_of_decreasing (holds.decreasing id) (fun i inside => holds.ne_zero inside) (holds.inside id)
  have followed := interpretationsFrom_eq (holds.visits id) enough
  unfold Scopes.visible Scopes.getInterpretation Scopes.getInterpretationFromRaw
  by_cases conflict : v.scopes.isConflict (v.scopes.nameInfo id) = true
  · rw [if_pos conflict, if_neg (by simp [conflict])]
    exact interpretationsFrom_none _
  · rw [if_neg conflict, ← followed]
    by_cases valid : v.scopes.Valid (v.scopes.nameInfo id)
    · rw [if_pos ⟨valid, conflict⟩, if_pos valid]
    · rw [if_neg fun both => valid both.1, if_neg valid]

end View

end Ghdl.SemScopes
