import Ghdl.Vhdl.ScopeActions

/-!
# Steps on chains

Each action changes the chain of one identifier: an interpretation is put in front, and a homograph may be taken out.
The links that a hidden homograph needs are left in the table, so that linking it again gives the table from before.
-/

namespace Ghdl.SemScopes

open Linked Function

variable {Iir Id : Type}

section Cells

variable {cells : List (Cell Iir Id)} {homograph prev : Nat} {f : Cell Iir Id → Cell Iir Id} {n : Nat}

/-- The table after HOMOGRAPH is hidden behind PREV. -/
def hideIn (cells : List (Cell Iir Id)) (homograph prev : Nat) : List (Cell Iir Id) :=
  modifyAt (modifyAt cells homograph fun c => { c with prev := prev }) prev fun c =>
    { c with prev := prevs cells homograph }

/-- A cell without its link. -/
def Cell.data (c : Cell Iir Id) : Cell Iir Id := { c with prev := noInterpretation }

theorem cell_eq {c d : Cell Iir Id} (data : c.data = d.data) (prev : c.prev = d.prev) : c = d := by
  obtain ⟨decl, isPotential, prevHidden, link, prevInRegion⟩ := c
  obtain ⟨decl', isPotential', prevHidden', link', prevInRegion'⟩ := d
  simp only [Cell.data, Cell.mk.injEq] at data prev ⊢
  exact ⟨data.1, data.2.1, data.2.2.1, prev, data.2.2.2.2⟩

variable (cells prev n) in
theorem data_modifyAt (m : Nat) : (cellAt (modifyAt cells m fun c => { c with prev := prev }) n).data = (cellAt cells n).data := by
  by_cases same : n = m
  · subst same
    by_cases zero : n = 0
    · rw [zero]
      rfl
    · by_cases inside : n ≤ cells.length
      · rw [cellAt_modifyAt_self zero inside]
        rfl
      · rw [cellAt_beyond (by rw [length_modifyAt]; omega), cellAt_beyond (by omega)]
  · rw [cellAt_modifyAt_of_ne same]

theorem length_hideIn : (hideIn cells homograph prev).length = cells.length := by
  unfold hideIn
  rw [length_modifyAt, length_modifyAt]

theorem data_hideIn (n : Nat) : (cellAt (hideIn cells homograph prev) n).data = (cellAt cells n).data := by
  unfold hideIn
  rw [data_modifyAt, data_modifyAt]

theorem prevs_modifyAt_self (positive : n ≠ 0) (inside : n ≤ cells.length) (m : Nat) :
    prevs (modifyAt cells n fun c => { c with prev := prev }) m = update (prevs cells) n prev m := by
  unfold prevs
  by_cases same : m = n
  · subst same
    rw [cellAt_modifyAt_self positive inside, update_self]
  · rw [cellAt_modifyAt_of_ne same, update_of_ne same]

theorem prevs_hideIn (positive : homograph ≠ 0) (inside : homograph ≤ cells.length) (positive' : prev ≠ 0)
    (inside' : prev ≤ cells.length) : prevs (hideIn cells homograph prev) = unlink (prevs cells) homograph prev := by
  funext n
  unfold hideIn unlink
  rw [prevs_modifyAt_self positive' (by rw [length_modifyAt]; exact inside')]
  congr 1
  funext m
  exact prevs_modifyAt_self positive inside m

theorem length_restoreHidden (n : Nat) : (restoreHidden cells n).length = cells.length := by
  unfold restoreHidden
  rw [length_modifyAt, length_modifyAt]

theorem data_restoreHidden (m n : Nat) : (cellAt (restoreHidden cells m) n).data = (cellAt cells n).data := by
  unfold restoreHidden
  rw [data_modifyAt, data_modifyAt]

theorem restoreHidden_hideIn (positive : homograph ≠ 0) (inside : homograph ≤ cells.length) (positive' : prev ≠ 0)
    (inside' : prev ≤ cells.length) (follows : prevs cells prev = homograph) (different : homograph ≠ prev) :
    restoreHidden (hideIn cells homograph prev) homograph = cells := by
  have links := prevs_hideIn positive inside positive' inside'
  have link : prevs (hideIn cells homograph prev) homograph = prev := by
    rw [links]
    unfold unlink
    rw [update_of_ne different, update_self]
  apply cells_ext
  · rw [length_restoreHidden, length_hideIn]
  · intro n _
    apply cell_eq
    · rw [data_restoreHidden, data_hideIn]
    · have linked : prevs (restoreHidden (hideIn cells homograph prev) homograph) n =
          relink (prevs (hideIn cells homograph prev)) homograph n := by
        unfold restoreHidden relink
        show prevs (modifyAt (modifyAt (hideIn cells homograph prev) homograph _)
          (prevs (hideIn cells homograph prev) homograph) _) n = _
        rw [link, prevs_modifyAt_self positive' (by rw [length_modifyAt, length_hideIn]; exact inside')]
        congr 1
        funext m
        rw [prevs_modifyAt_self positive (by rw [length_hideIn]; exact inside)]
        show update (prevs (hideIn cells homograph prev)) homograph
          (prevs (hideIn cells homograph prev) (prevs (hideIn cells homograph prev) homograph)) m = _
        rw [link]
      show prevs _ n = prevs cells n
      rw [linked, links, relink_unlink follows different]

/-- No link leads beyond a bound. -/
def Bounded (cells : List (Cell Iir Id)) (m : Nat) : Prop := ∀ n, prevs cells n ≤ m

theorem Bounded.modifyAt {m : Nat} (bounded : Bounded cells m) (bound : prev ≤ m) (n : Nat) :
    Bounded (modifyAt cells n fun c => { c with prev := prev }) m := by
  intro k
  by_cases same : k = n
  · subst same
    by_cases zero : k = 0
    · rw [zero]
      exact Nat.zero_le m
    by_cases inside : k ≤ cells.length
    · rw [prevs_modifyAt_self zero inside, update_self]
      exact bound
    · show (cellAt _ k).prev ≤ m
      rw [cellAt_beyond (by rw [length_modifyAt]; omega)]
      exact Nat.zero_le m
  · show (cellAt _ k).prev ≤ m
    rw [cellAt_modifyAt_of_ne same]
    exact bounded k

theorem Bounded.restoreHidden {m : Nat} (bounded : Bounded cells m) (bound : n ≤ m) :
    Bounded (restoreHidden cells n) m :=
  (bounded.modifyAt (bounded _) n).modifyAt bound _

theorem restoreHidden_append {m : Nat} (bounded : Bounded cells m) (size : m ≤ cells.length) (bound : n ≤ m)
    (l : List (Cell Iir Id)) : restoreHidden (cells ++ l) n = restoreHidden cells n ++ l := by
  have here : cellAt (cells ++ l) n = cellAt cells n := cellAt_append l (by omega)
  have before : (cellAt cells n).prev ≤ m := bounded n
  have there : cellAt (cells ++ l) (cellAt cells n).prev = cellAt cells (cellAt cells n).prev := cellAt_append l (by omega)
  simp only [restoreHidden, here, there]
  rw [modifyAt_append l (by omega), modifyAt_append l (by rw [length_modifyAt]; omega)]

/-- The table with the hidden homographs of a log linked again. -/
def undoLog (cells : List (Cell Iir Id)) (log : List Nat) : List (Cell Iir Id) :=
  log.reverse.foldl restoreHidden cells

theorem undoLog_eq (cells : List (Cell Iir Id)) (log : List Nat) :
    undoLog cells log = log.foldr (fun n cells => restoreHidden cells n) cells := List.foldl_reverse

theorem undoLog_concat (cells : List (Cell Iir Id)) (log : List Nat) (n : Nat) :
    undoLog cells (log ++ [n]) = undoLog (restoreHidden cells n) log := by
  rw [undoLog_eq, undoLog_eq, List.foldr_append]
  rfl

theorem length_undoLog (log : List Nat) : (undoLog cells log).length = cells.length := by
  rw [undoLog_eq]
  induction log with
  | nil => rfl
  | cons n log ih => rw [List.foldr_cons, length_restoreHidden, ih]

theorem data_undoLog (log : List Nat) (n : Nat) : (cellAt (undoLog cells log) n).data = (cellAt cells n).data := by
  rw [undoLog_eq]
  induction log with
  | nil => rfl
  | cons m log ih => rw [List.foldr_cons, data_restoreHidden, ih]

theorem undoLog_append {m : Nat} (bounded : Bounded cells m) (size : m ≤ cells.length) {log : List Nat}
    (bounds : ∀ n ∈ log, n ≤ m) (l : List (Cell Iir Id)) :
    undoLog (cells ++ l) log = undoLog cells log ++ l ∧ Bounded (undoLog cells log) m := by
  simp only [undoLog_eq]
  induction log with
  | nil => exact ⟨rfl, bounded⟩
  | cons n log ih =>
    obtain ⟨rest, bounded'⟩ := ih fun k inside => bounds k (List.mem_cons_of_mem n inside)
    have bound := bounds n List.mem_cons_self
    have size' : m ≤ (log.foldr (fun n cells => restoreHidden cells n) cells).length := by
      rw [← undoLog_eq, length_undoLog]
      exact size
    rw [List.foldr_cons, List.foldr_cons, rest]
    exact ⟨restoreHidden_append bounded' size' bound l, bounded'.restoreHidden bound⟩

/-- The table with another declaration in a cell. -/
def replaceIn (cells : List (Cell Iir Id)) (homograph : Nat) (decl : Iir) : List (Cell Iir Id) :=
  modifyAt cells homograph fun c => { c with decl := some decl }

variable {decl : Iir}

theorem length_replaceIn : (replaceIn cells homograph decl).length = cells.length := length_modifyAt

theorem cellAt_replaceIn (n : Nat) : cellAt (replaceIn cells homograph decl) n =
      if n = homograph ∧ n ≠ 0 ∧ n ≤ cells.length then { cellAt cells n with decl := some decl } else cellAt cells n := by
  unfold replaceIn
  by_cases same : n = homograph
  · subst same
    by_cases zero : n = 0
    · rw [zero]
      rfl
    · by_cases inside : n ≤ cells.length
      · rw [cellAt_modifyAt_self zero inside, if_pos ⟨rfl, zero, inside⟩]
      · rw [if_neg (by omega), cellAt_beyond (by rw [length_modifyAt]; omega), cellAt_beyond (by omega)]
  · rw [cellAt_modifyAt_of_ne same, if_neg fun all => same all.1]

theorem prevs_replaceIn : prevs (replaceIn cells homograph decl) = prevs cells := by
  funext n
  unfold prevs
  rw [cellAt_replaceIn]
  split <;> rfl

theorem prevHidden_replaceIn (n : Nat) :
    (cellAt (replaceIn cells homograph decl) n).prevHidden = (cellAt cells n).prevHidden := by
  rw [cellAt_replaceIn]
  split <;> rfl

theorem prevInRegion_replaceIn (n : Nat) :
    (cellAt (replaceIn cells homograph decl) n).prevInRegion = (cellAt cells n).prevInRegion := by
  rw [cellAt_replaceIn]
  split <;> rfl

theorem replaceIn_beyond (outside : cells.length < homograph) : replaceIn cells homograph decl = cells := by
  apply cells_ext length_replaceIn
  intro n inside
  rw [cellAt_replaceIn, if_neg (by omega)]

theorem replaceIn_modifyAt (m : Nat) : replaceIn (modifyAt cells m fun c => { c with prev := prev }) homograph decl =
      modifyAt (replaceIn cells homograph decl) m fun c => { c with prev := prev } := by
  apply cells_ext
  · rw [length_replaceIn, length_modifyAt, length_modifyAt, length_replaceIn]
  · intro n _
    apply cell_eq
    · have left := data_modifyAt cells prev n m
      have right := data_modifyAt (replaceIn cells homograph decl) prev n m
      rw [right, cellAt_replaceIn, cellAt_replaceIn, length_modifyAt]
      split
      · exact congrArg (fun c : Cell Iir Id => { c with decl := some decl }) left
      · exact left
    · show prevs _ n = prevs _ n
      rw [prevs_replaceIn]
      by_cases same : n = m
      · subst same
        by_cases zero : n = 0
        · rw [zero]
          rfl
        by_cases inside : n ≤ cells.length
        · rw [prevs_modifyAt_self zero inside, prevs_modifyAt_self zero (by rw [length_replaceIn]; exact inside),
            update_self, update_self]
        · show (cellAt _ n).prev = (cellAt _ n).prev
          rw [cellAt_beyond (by rw [length_modifyAt]; omega),
            cellAt_beyond (by rw [length_modifyAt, length_replaceIn]; omega)]
      · show (cellAt _ n).prev = (cellAt _ n).prev
        rw [cellAt_modifyAt_of_ne same, cellAt_modifyAt_of_ne same]
        exact (congrFun prevs_replaceIn n).symm

theorem replaceIn_restoreHidden (n : Nat) :
    restoreHidden (replaceIn cells homograph decl) n = replaceIn (restoreHidden cells n) homograph decl := by
  have links : ∀ k, (cellAt (replaceIn cells homograph decl) k).prev = (cellAt cells k).prev :=
    fun k => congrFun prevs_replaceIn k
  unfold restoreHidden
  simp only [links, replaceIn_modifyAt]

theorem replaceIn_undoLog (log : List Nat) :
    undoLog (replaceIn cells homograph decl) log = replaceIn (undoLog cells log) homograph decl := by
  simp only [undoLog_eq]
  induction log with
  | nil => rfl
  | cons n log ih => rw [List.foldr_cons, List.foldr_cons, ih, replaceIn_restoreHidden]

theorem replaceIn_take (n : Nat) : (replaceIn cells homograph decl).take n = replaceIn (cells.take n) homograph decl := by
  unfold replaceIn modifyAt
  cases homograph with
  | zero => rfl
  | succ k => exact List.take_modify _ _ _ _

end Cells

section Views

variable [DecidableEq Id] {nodes : Nodes Iir} {v : View Iir Id} {ident : Id}
  {potentially hidPrev : Bool} {d : Option Iir} {decl : Iir} {homograph prev : Nat}

/-- A new interpretation is the first one of its chain. -/
def View.add (v : View Iir Id) (ident : Id) (potentially hidPrev : Bool) (d : Option Iir) : View Iir Id :=
  ⟨addNewInterpretation v.scopes ident potentially hidPrev d,
    update v.chain ident ((v.scopes.last + 1) :: v.chain ident)⟩

/-- A hidden homograph is not in its chain. -/
def View.hide (v : View Iir Id) (ident : Id) (homograph prev : Nat) : View Iir Id :=
  ⟨{ v.scopes with
      hiddenDecls := v.scopes.hiddenDecls ++ [homograph]
      interpretations := hideIn v.scopes.interpretations homograph prev },
    update v.chain ident ((v.chain ident).erase homograph)⟩

/-- A replaced homograph stays in its chain. -/
def View.replace (v : View Iir Id) (homograph : Nat) (decl : Iir) : View Iir Id :=
  ⟨replaceHomograph v.scopes homograph decl, v.chain⟩

theorem View.add_last : (v.add ident potentially hidPrev d).scopes.last = v.scopes.last + 1 := by
  simp [View.add, addNewInterpretation, Scopes.last]

theorem View.add_cell {n : Nat} (inside : n ≤ v.scopes.last) :
    (v.add ident potentially hidPrev d).scopes.cell n = v.scopes.cell n := cellAt_append _ inside

theorem View.add_cell_last : (v.add ident potentially hidPrev d).scopes.cell (v.scopes.last + 1) =
      ⟨d, potentially, hidPrev, v.scopes.nameInfo ident, v.scopes.lastInRegion⟩ := cellAt_concat _

theorem View.add_chain_self :
    (v.add ident potentially hidPrev d).chain ident = (v.scopes.last + 1) :: v.chain ident := update_self _ _ _

theorem View.add_chain_of_ne {id : Id} (other : id ≠ ident) :
    (v.add ident potentially hidPrev d).chain id = v.chain id := update_of_ne other _ _

theorem View.mem_add_chain {id : Id} {i : Nat} :
    i ∈ (v.add ident potentially hidPrev d).chain id ↔ (id = ident ∧ i = v.scopes.last + 1) ∨ i ∈ v.chain id := by
  by_cases same : id = ident
  · subst same
    rw [View.add_chain_self, List.mem_cons]
    simp
  · rw [View.add_chain_of_ne same]
    simp [same]

theorem View.Holds.add (holds : v.Holds nodes)
    (cut : hidPrev = true → ∀ i l, v.chain ident = i :: l → v.scopes.Valid i →
      (∃ e, d = some e ∧ nodes.isOverloadable e = true) → ¬ Plain nodes v.scopes i) :
    (v.add ident potentially hidPrev d).Holds nodes := by
  have old : ∀ {id i}, i ∈ v.chain id → (v.add ident potentially hidPrev d).scopes.cell i = v.scopes.cell i :=
    fun inside => View.add_cell (holds.inside _ _ inside)
  have frame : ∀ {id} {p : Nat}, Visits (prevs v.scopes.interpretations) noInterpretation p (v.chain id) →
      Visits (prevs (v.add ident potentially hidPrev d).scopes.interpretations) noInterpretation p (v.chain id) :=
    fun visits => (Visits.congr fun i inside => congrArg Cell.prev (old inside)).mpr visits
  have reach : v.scopes.firstInterpretation ≤ v.scopes.last + 1 := holds.reach
  refine ⟨fun id => ?_, fun id => ?_, fun id i inside => ?_, fun id id' i inside inside' => ?_, fun n => ?_, holds.first,
    by rw [View.add_last]; exact Nat.le_succ_of_le reach, fun id l i j m isChain hidden valid plain => ?_⟩
  · by_cases same : id = ident
    · subst same
      rw [View.add_chain_self]
      refine ⟨update_self _ _ _, Nat.succ_ne_zero _, ?_⟩
      have link : prevs (v.add id potentially hidPrev d).scopes.interpretations (v.scopes.last + 1) = v.scopes.nameInfo id :=
        congrArg Cell.prev View.add_cell_last
      rw [link]
      exact frame (holds.visits id)
    · rw [View.add_chain_of_ne same]
      have info : (v.add ident potentially hidPrev d).scopes.nameInfo id = v.scopes.nameInfo id :=
        update_of_ne same _ _
      rw [info]
      exact frame (holds.visits id)
  · by_cases same : id = ident
    · subst same
      rw [View.add_chain_self]
      exact List.pairwise_cons.mpr ⟨fun i inside => Nat.lt_succ_of_le (holds.inside id i inside), holds.decreasing id⟩
    · rw [View.add_chain_of_ne same]
      exact holds.decreasing id
  · rw [View.add_last]
    rcases View.mem_add_chain.mp inside with ⟨-, rfl⟩ | inside
    · exact Nat.le_refl _
    · exact Nat.le_succ_of_le (holds.inside id i inside)
  · rcases View.mem_add_chain.mp inside with ⟨isIdent, isNew⟩ | old
    · rcases View.mem_add_chain.mp inside' with ⟨isIdent', -⟩ | old'
      · rw [isIdent, isIdent']
      · have bound := holds.inside id' i old'
        omega
    · rcases View.mem_add_chain.mp inside' with ⟨-, isNew⟩ | old'
      · have bound := holds.inside id i old
        omega
      · exact holds.disjoint id id' i old old'
  · rw [View.add_last]
    by_cases inside : n ≤ v.scopes.last
    · have cell : (v.add ident potentially hidPrev d).scopes.cell n = v.scopes.cell n := View.add_cell inside
      have same := congrArg Cell.prev cell
      have bound := holds.bounded n
      show (Scopes.cell _ n).prev ≤ _
      rw [same]
      exact Nat.le_succ_of_le bound
    by_cases isNew : n = v.scopes.last + 1
    · show (Scopes.cell _ n).prev ≤ _
      rw [isNew, View.add_cell_last]
      exact Nat.le_succ_of_le (holds.nameInfo_le ident)
    · show (cellAt _ n).prev ≤ _
      have size : (v.add ident potentially hidPrev d).scopes.interpretations.length = v.scopes.last + 1 := View.add_last
      rw [cellAt_beyond (by omega)]
      exact Nat.zero_le _
  · have inChain : ∀ k, k ∈ l ++ i :: j :: m → k ∈ (v.add ident potentially hidPrev d).chain id := fun k inside => by
      rw [isChain]
      exact inside
    by_cases same : id = ident
    · subst same
      rw [View.add_chain_self] at isChain
      cases l with
      | nil =>
        obtain ⟨rfl, rest⟩ := List.cons.inj isChain
        have inside : j ∈ v.chain id := by
          rw [rest]
          exact List.mem_cons_self
        rw [View.add_cell_last] at hidden
        obtain ⟨e, isDecl, overloadable⟩ := plain
        rw [View.add_cell_last] at isDecl
        rw [Plain.congr (congrArg Cell.decl (old inside))]
        exact cut hidden j m rest valid ⟨e, isDecl, overloadable⟩
      | cons k l =>
        obtain ⟨rfl, rest⟩ := List.cons.inj isChain
        have insideI : i ∈ v.chain id := by
          rw [rest]
          exact List.mem_append_right l List.mem_cons_self
        have insideJ : j ∈ v.chain id := by
          rw [rest]
          exact List.mem_append_right l (List.mem_cons_of_mem i List.mem_cons_self)
        rw [old insideI] at hidden
        rw [Plain.congr (congrArg Cell.decl (old insideI))] at plain
        rw [Plain.congr (congrArg Cell.decl (old insideJ))]
        exact holds.cut id l i j m rest hidden valid plain
    · rw [View.add_chain_of_ne same] at isChain
      have insideI : i ∈ v.chain id := by
        rw [isChain]
        exact List.mem_append_right l List.mem_cons_self
      have insideJ : j ∈ v.chain id := by
        rw [isChain]
        exact List.mem_append_right l (List.mem_cons_of_mem i List.mem_cons_self)
      rw [old insideI] at hidden
      rw [Plain.congr (congrArg Cell.decl (old insideI))] at plain
      rw [Plain.congr (congrArg Cell.decl (old insideJ))]
      exact holds.cut id l i j m isChain hidden valid plain

theorem View.hide_last : (v.hide ident homograph prev).scopes.last = v.scopes.last := length_hideIn

theorem View.hide_data (n : Nat) : ((v.hide ident homograph prev).scopes.cell n).data = (v.scopes.cell n).data :=
  data_hideIn n

theorem View.hide_decl (n : Nat) : ((v.hide ident homograph prev).scopes.cell n).decl = (v.scopes.cell n).decl := by
  have data : ((v.hide ident homograph prev).scopes.cell n).data = (v.scopes.cell n).data := View.hide_data n
  have same := congrArg Cell.decl data
  exact same

theorem View.hide_prevHidden (n : Nat) :
    ((v.hide ident homograph prev).scopes.cell n).prevHidden = (v.scopes.cell n).prevHidden := by
  have data : ((v.hide ident homograph prev).scopes.cell n).data = (v.scopes.cell n).data := View.hide_data n
  have same := congrArg Cell.prevHidden data
  exact same

theorem View.hide_chain_of_ne {id : Id} (other : id ≠ ident) : (v.hide ident homograph prev).chain id = v.chain id :=
  update_of_ne other _ _

theorem View.hide_chain_self : (v.hide ident homograph prev).chain ident = (v.chain ident).erase homograph :=
  update_self _ _ _

theorem View.hide_chain_sublist (id : Id) : ((v.hide ident homograph prev).chain id).Sublist (v.chain id) := by
  by_cases same : id = ident
  · subst same
    rw [View.hide_chain_self]
    exact List.erase_sublist
  · rw [View.hide_chain_of_ne same]

omit [DecidableEq Id] in
theorem View.Holds.erase_eq (holds : v.Holds nodes) {l m : List Nat} (isChain : v.chain ident = l ++ homograph :: m) :
    (v.chain ident).erase homograph = l ++ m := by
  have distinct := holds.nodup ident
  rw [isChain] at distinct ⊢
  have notBefore : homograph ∉ l := fun inside =>
    (List.nodup_append.mp distinct).2.2 homograph inside homograph List.mem_cons_self rfl
  rw [List.erase_append_right _ notBefore, List.erase_cons_head]

theorem View.Holds.hide (holds : v.Holds nodes) {l m : List Nat} (isChain : v.chain ident = l ++ prev :: homograph :: m)
    (isOpen : (v.scopes.cell prev).prevHidden = false) : (v.hide ident homograph prev).Holds nodes := by
  have inPrev : prev ∈ v.chain ident := by
    rw [isChain]
    exact List.mem_append_right l List.mem_cons_self
  have inHomograph : homograph ∈ v.chain ident := by
    rw [isChain]
    exact List.mem_append_right l (List.mem_cons_of_mem prev List.mem_cons_self)
  have links : prevs (v.hide ident homograph prev).scopes.interpretations =
      unlink (prevs v.scopes.interpretations) homograph prev :=
    prevs_hideIn (holds.ne_zero inHomograph) (holds.inside _ _ inHomograph) (holds.ne_zero inPrev) (holds.inside _ _ inPrev)
  have split : v.chain ident = (l ++ [prev]) ++ homograph :: m := by
    rw [isChain]
    simp
  have erased : (v.hide ident homograph prev).chain ident = l ++ prev :: m := by
    rw [View.hide_chain_self, holds.erase_eq split]
    simp
  refine ⟨fun id => ?_, fun id => (holds.decreasing id).sublist (View.hide_chain_sublist id), fun id i inside => ?_,
    fun id id' i inside inside' => ?_, fun n => ?_, holds.first, by rw [View.hide_last]; exact holds.reach,
    fun id k i j rest isChain' hidden valid plain => ?_⟩
  · rw [links]
    have visits := holds.visits id
    by_cases same : id = ident
    · subst same
      have distinct := holds.nodup id
      rw [erased]
      rw [isChain] at visits distinct
      exact visits.unlink distinct
    rw [View.hide_chain_of_ne same]
    refine (Visits.congr fun i inside => ?_).mpr visits
    have notPrev : i ≠ prev := fun isPrev => same (holds.disjoint id ident i inside (isPrev ▸ inPrev))
    have notHomograph : i ≠ homograph := fun isHomograph => same (holds.disjoint id ident i inside (isHomograph ▸ inHomograph))
    unfold unlink
    rw [update_of_ne notPrev, update_of_ne notHomograph]
  · rw [View.hide_last]
    exact holds.inside id i ((View.hide_chain_sublist id).subset inside)
  · exact holds.disjoint id id' i ((View.hide_chain_sublist id).subset inside) ((View.hide_chain_sublist id').subset inside')
  · rw [View.hide_last]
    have bounded : Bounded v.scopes.interpretations v.scopes.last := holds.bounded
    exact (bounded.modifyAt (holds.inside _ _ inPrev) homograph).modifyAt (holds.bounded homograph) prev n
  · rw [View.hide_prevHidden] at hidden
    rw [Plain.congr (View.hide_decl i)] at plain
    rw [Plain.congr (View.hide_decl j)]
    by_cases same : id = ident
    · subst same
      rw [erased] at isChain'
      -- The member that is followed by another one now does not hide it.
      rcases List.append_eq_append_iff.mp isChain' with ⟨middle, isK, isRest⟩ | ⟨middle, isL, isRest⟩
      · cases middle with
        | nil =>
          obtain ⟨rfl, -⟩ := List.cons.inj isRest
          rw [isOpen] at hidden
          exact absurd hidden Bool.false_ne_true
        | cons p middle =>
          obtain ⟨rfl, isM⟩ := List.cons.inj isRest
          refine holds.cut id (l ++ prev :: homograph :: middle) i j rest ?_ hidden valid plain
          rw [isChain, isM]
          simp
      · cases middle with
        | nil =>
          obtain ⟨rfl, -⟩ := List.cons.inj isRest
          rw [isOpen] at hidden
          exact absurd hidden Bool.false_ne_true
        | cons i' middle =>
          obtain ⟨rfl, isTail⟩ := List.cons.inj isRest
          cases middle with
          | nil =>
            obtain ⟨rfl, -⟩ := List.cons.inj isTail
            refine holds.cut id k i j (homograph :: m) ?_ hidden valid plain
            rw [isChain, isL]
            simp
          | cons j' middle =>
            obtain ⟨rfl, -⟩ := List.cons.inj isTail
            refine holds.cut id k i j (middle ++ prev :: homograph :: m) ?_ hidden valid plain
            rw [isChain, isL]
            simp
    · rw [View.hide_chain_of_ne same] at isChain'
      exact holds.cut id k i j rest isChain' hidden valid plain

omit [DecidableEq Id]

theorem View.replace_last : (v.replace homograph decl).scopes.last = v.scopes.last := length_replaceIn

theorem View.replace_cell (n : Nat) : (v.replace homograph decl).scopes.cell n =
      if n = homograph ∧ n ≠ 0 ∧ n ≤ v.scopes.last then { v.scopes.cell n with decl := some decl } else v.scopes.cell n :=
  cellAt_replaceIn n

theorem View.replace_prevHidden (n : Nat) :
    ((v.replace homograph decl).scopes.cell n).prevHidden = (v.scopes.cell n).prevHidden := prevHidden_replaceIn n

theorem View.replace_plain (plain : homograph ≤ v.scopes.last → Plain nodes v.scopes homograph)
    (overloadable : nodes.isOverloadable decl = true) (n : Nat) :
    Plain nodes (v.replace homograph decl).scopes n ↔ Plain nodes v.scopes n := by
  by_cases here : n = homograph ∧ n ≠ 0 ∧ n ≤ v.scopes.last
  · refine iff_of_true ⟨decl, ?_, overloadable⟩ ?_
    · rw [View.replace_cell, if_pos here]
    · rw [here.1]
      exact plain (here.1 ▸ here.2.2)
  · exact Plain.congr (by rw [View.replace_cell, if_neg here])

theorem View.Holds.replace (holds : v.Holds nodes) (plain : homograph ≤ v.scopes.last → Plain nodes v.scopes homograph)
    (overloadable : nodes.isOverloadable decl = true) : (v.replace homograph decl).Holds nodes := by
  have links : prevs (v.replace homograph decl).scopes.interpretations = prevs v.scopes.interpretations := prevs_replaceIn
  refine ⟨fun id => ?_, holds.decreasing, fun id i inside => ?_, holds.disjoint, fun n => ?_, holds.first,
    by rw [View.replace_last]; exact holds.reach, fun id l i j m isChain hidden valid plainI => ?_⟩
  · rw [links]
    exact holds.visits id
  · rw [View.replace_last]
    exact holds.inside id i inside
  · rw [View.replace_last, links]
    exact holds.bounded n
  · rw [View.replace_prevHidden] at hidden
    rw [View.replace_plain plain overloadable] at plainI ⊢
    exact holds.cut id l i j m isChain hidden valid plainI

end Views

end Ghdl.SemScopes
