import Ghdl.Vhdl.ScopeSteps

/-!
# Regions

A state inside a region keeps all that is needed to get back to the state around it: the saved fields, the hidden
homographs in the order in which they were taken out, and the names in the order in which they were added. Closing the
region gives that state again, with the declarations that were replaced in it.
-/

namespace Ghdl.SemScopes

open Linked Fallible Function

variable {Iir Id : Type} [DecidableEq Id]

/-- So many interpretations were added from START on, the last one for a name; without them the names are BASE. -/
def Added (cells : List (Cell Iir Id)) (start : Nat) (base : Id → Nat) : Nat → Option Id → (Id → Nat) → Prop
  | 0, last, nameInfo => last = none ∧ nameInfo = base
  | n + 1, last, nameInfo => ∃ id, last = some id ∧ nameInfo id = start + n ∧
      Added cells start base n (cellAt cells (start + n)).prevInRegion
        (update nameInfo id (cellAt cells (start + n)).prev)

variable {cells cells' : List (Cell Iir Id)} {start : Nat} {base : Id → Nat}

variable {n : Nat} {nameInfo : Id → Nat}

theorem Added.congr {last : Option Id}
    (same : ∀ i < start + n, cellAt cells' i = cellAt cells i) (added : Added cells start base n last nameInfo) :
    Added cells' start base n last nameInfo := by
  induction n generalizing last nameInfo with
  | zero => exact added
  | succ n ih =>
    obtain ⟨id, isLast, isInfo, rest⟩ := added
    refine ⟨id, isLast, isInfo, ?_⟩
    rw [same (start + n) (by omega)]
    exact ih (fun i less => same i (Nat.lt_succ_of_lt less)) rest

theorem Added.replaceIn {last : Option Id} {homograph : Nat} {decl : Iir}
    (added : Added cells start base n last nameInfo) : Added (replaceIn cells homograph decl) start base n last nameInfo := by
  induction n generalizing last nameInfo with
  | zero => exact added
  | succ n ih =>
    obtain ⟨id, isLast, isInfo, rest⟩ := added
    refine ⟨id, isLast, isInfo, ?_⟩
    have link : (cellAt (SemScopes.replaceIn cells homograph decl) (start + n)).prev = (cellAt cells (start + n)).prev :=
      congrFun prevs_replaceIn _
    rw [prevInRegion_replaceIn, link]
    exact ih rest

theorem removeNames_of_added {fuel : Nat} {id : Id}
    (added : Added cells start base (n + 1) (some id) nameInfo) (enough : n < fuel) :
    removeNames cells start fuel nameInfo id = .ok base := by
  induction n generalizing fuel id nameInfo with
  | zero =>
    obtain ⟨fuel, rfl⟩ := fuel_succ enough
    obtain ⟨id', isLast, isInfo, none, isBase⟩ := added
    obtain rfl := Option.some.inj isLast
    rw [Nat.add_zero] at isInfo none isBase
    rw [removeNames]
    simp only [isInfo, Nat.lt_irrefl, if_false, none, if_true, isBase]
  | succ n ih =>
    obtain ⟨fuel, rfl⟩ := fuel_succ enough
    obtain ⟨id', isLast, isInfo, rest⟩ := added
    obtain rfl := Option.some.inj isLast
    have tail := rest
    obtain ⟨next, isNext, -⟩ := tail
    have above : ¬ start + (n + 1) < start := by omega
    rw [isNext] at rest
    rw [removeNames]
    simp only [isInfo, above, if_false, isNext]
    exact ih rest (Nat.lt_of_succ_lt_succ enough)

/-- What `Open_Declarative_Region` and `Push_Interpretations` save. -/
def ScopeKind.saved (kind : ScopeKind) (s : Scopes Iir Id) : ScopeCell Id :=
  ⟨kind, s.lastInRegion, s.currentRegionStart, s.firstHideIndex,
    match kind with | .region => noInterpretation | .start => s.firstInterpretation⟩

/-- The first interpretation in a scope. -/
def ScopeKind.first (kind : ScopeKind) (s : Scopes Iir Id) : Nat :=
  match kind with | .region => s.firstInterpretation | .start => s.last + 1

/-- The homographs that were hidden in the inner state. -/
def View.log (outer v : View Iir Id) : List Nat := v.scopes.hiddenDecls.drop outer.scopes.hiddenDecls.length

variable [DecidableEq Iir]

/-- The state is inside a scope that was opened in the outer state. -/
structure Inside (nodes : Nodes Iir) (kind : ScopeKind) (outer v : View Iir Id) : Prop where
  scopes : v.scopes.scopes = kind.saved outer.scopes :: outer.scopes.scopes
  start : v.scopes.currentRegionStart = outer.scopes.last + 1
  hideIndex : v.scopes.firstHideIndex = outer.scopes.hiddenDecls.length + 1
  first : v.scopes.firstInterpretation = kind.first outer.scopes
  hidden : v.scopes.hiddenDecls = outer.scopes.hiddenDecls ++ outer.log v
  logBound : ∀ h ∈ outer.log v, h ≤ v.scopes.last
  size : outer.scopes.last ≤ v.scopes.last
  undone : (undoLog v.scopes.interpretations (outer.log v)).take outer.scopes.last = outer.scopes.interpretations
  added : Added (undoLog v.scopes.interpretations (outer.log v)) (outer.scopes.last + 1) outer.scopes.nameInfo
    (v.scopes.last - outer.scopes.last) v.scopes.lastInRegion v.scopes.nameInfo
  below : ∀ id, (v.chain id).filter (· ≤ outer.scopes.last) = (outer.chain id).filter (· ∉ outer.log v)
  plainHidden : ∀ h ∈ outer.log v, Plain nodes v.scopes h
  /-- A hidden homograph of the outer state is hidden by an interpretation of the inner one. -/
  hider : ∀ id h, h ∈ outer.log v → h ∈ outer.chain id → ∃ e i, (v.scopes.cell h).decl = some e ∧ i ∈ v.chain id ∧
    outer.scopes.last < i ∧ IsHomograph nodes v.scopes e i

variable {nodes : Nodes Iir} {kind : ScopeKind} {outer v : View Iir Id}

theorem Inside.entered {s : Scopes Iir Id} (scopes : s.scopes = kind.saved outer.scopes :: outer.scopes.scopes)
    (start : s.currentRegionStart = outer.scopes.last + 1) (hideIndex : s.firstHideIndex = outer.scopes.hiddenDecls.length + 1)
    (first : s.firstInterpretation = kind.first outer.scopes) (hidden : s.hiddenDecls = outer.scopes.hiddenDecls)
    (cells : s.interpretations = outer.scopes.interpretations) (nameInfo : s.nameInfo = outer.scopes.nameInfo)
    (last : s.lastInRegion = none) (holds : outer.Holds nodes) : Inside nodes kind outer ⟨s, outer.chain⟩ := by
  have log : outer.log ⟨s, outer.chain⟩ = [] := by
    unfold View.log
    rw [hidden, List.drop_length]
  have size : s.last = outer.scopes.last := congrArg List.length cells
  have noLog : ∀ h, h ∉ outer.log ⟨s, outer.chain⟩ := fun h inside => by
    rw [log] at inside
    exact List.not_mem_nil inside
  refine ⟨scopes, start, hideIndex, first, ?_, fun h inside => absurd inside (noLog h), Nat.le_of_eq size.symm, ?_, ?_,
    fun id => ?_, fun h inside => absurd inside (noLog h), fun id h inside => absurd inside (noLog h)⟩
  · rw [log, List.append_nil]
    exact hidden
  · rw [log]
    show s.interpretations.take outer.scopes.last = _
    rw [cells]
    exact List.take_length
  · show Added _ _ _ (s.last - outer.scopes.last) s.lastInRegion s.nameInfo
    rw [size, Nat.sub_self]
    exact ⟨last, nameInfo⟩
  · rw [log]
    have all : ∀ i ∈ outer.chain id, i ≤ outer.scopes.last := holds.inside id
    rw [List.filter_eq_self.mpr fun i inside => decide_eq_true (all i inside)]
    exact (List.filter_eq_self.mpr fun i _ => decide_eq_true List.not_mem_nil).symm

theorem Inside.close (inside : Inside nodes .region outer v) : closeDeclarativeRegion v.scopes = .ok outer.scopes := by
  have log : v.scopes.hiddenDecls.drop (v.scopes.firstHideIndex - 1) = outer.log v := by
    rw [inside.hideIndex]
    rfl
  have below : v.scopes.hiddenDecls.take (v.scopes.firstHideIndex - 1) = outer.scopes.hiddenDecls := by
    rw [inside.hideIndex, inside.hidden, Nat.add_sub_cancel, List.take_left]
  have first : v.scopes.firstInterpretation = outer.scopes.firstInterpretation := inside.first
  have length : (undoLog v.scopes.interpretations (outer.log v)).length = v.scopes.last := length_undoLog _
  unfold closeDeclarativeRegion
  rw [inside.scopes]
  dsimp only [ScopeKind.saved]
  rw [if_pos rfl, log, below]
  have added := inside.added
  cases isLast : v.scopes.lastInRegion with
  | none =>
    rw [isLast] at added
    cases count : v.scopes.last - outer.scopes.last with
    | succ n =>
      rw [count] at added
      obtain ⟨id, isSome, -⟩ := added
      exact absurd isSome (by simp)
    | zero =>
      rw [count] at added
      have size := inside.size
      have all : undoLog v.scopes.interpretations (outer.log v) = outer.scopes.interpretations := by
        rw [← inside.undone, List.take_of_length_le]
        rw [length]
        show v.scopes.last ≤ _
        omega
      show Except.ok _ = Except.ok _
      have undone : (outer.log v).reverse.foldl restoreHidden v.scopes.interpretations = outer.scopes.interpretations := all
      rw [undone, added.2, first]
  | some id =>
    rw [isLast] at added
    cases count : v.scopes.last - outer.scopes.last with
    | zero =>
      rw [count] at added
      exact absurd added.1 (by simp)
    | succ n =>
      rw [count] at added
      have enough : n < (undoLog v.scopes.interpretations (outer.log v)).length + 1 := by
        rw [length]
        show n < v.scopes.last + 1
        omega
      have removed := removeNames_of_added added enough
      rw [← inside.start] at removed
      have undone : (undoLog v.scopes.interpretations (outer.log v)).take (v.scopes.currentRegionStart - 1) =
          outer.scopes.interpretations := by
        rw [inside.start, Nat.add_sub_cancel]
        exact inside.undone
      show (removeNames (undoLog v.scopes.interpretations (outer.log v)) v.scopes.currentRegionStart
        ((undoLog v.scopes.interpretations (outer.log v)).length + 1) v.scopes.nameInfo id >>= _) = _
      rw [removed]
      show Except.ok (⟨(undoLog v.scopes.interpretations (outer.log v)).take (v.scopes.currentRegionStart - 1), _, _, _,
        v.scopes.firstInterpretation, _, _, _⟩ : Scopes Iir Id) = Except.ok _
      rw [undone, first]

theorem Inside.mem_below (inside : Inside nodes kind outer v) {id : Id} {i : Nat} :
    i ∈ v.chain id ∧ i ≤ outer.scopes.last ↔ i ∈ outer.chain id ∧ i ∉ outer.log v := by
  have below := congrArg (i ∈ ·) (inside.below id)
  simpa using below

variable {ident : Id} {potentially hidPrev : Bool} {d : Option Iir} {decl : Iir} {homograph prev : Nat}

section

variable (inside : Inside nodes kind outer v)
include inside

variable (ident potentially hidPrev d) in
theorem Inside.undone_add (holds : v.Holds nodes) :
    undoLog (v.add ident potentially hidPrev d).scopes.interpretations (outer.log v) =
      undoLog v.scopes.interpretations (outer.log v) ++
        [⟨d, potentially, hidPrev, v.scopes.nameInfo ident, v.scopes.lastInRegion⟩] :=
  (undoLog_append holds.bounded (Nat.le_refl _) inside.logBound _).1

theorem Inside.add (holds : v.Holds nodes) :
    Inside nodes kind outer (v.add ident potentially hidPrev d) := by
  have undone := inside.undone_add ident potentially hidPrev d holds
  have length : (undoLog v.scopes.interpretations (outer.log v)).length = v.scopes.last := length_undoLog _
  have size := inside.size
  have cell : ∀ {n}, n ≤ v.scopes.last → (v.add ident potentially hidPrev d).scopes.cell n = v.scopes.cell n :=
    fun bound => View.add_cell bound
  refine ⟨inside.scopes, inside.start, inside.hideIndex, inside.first, inside.hidden, fun h inLog => ?_, ?_, ?_, ?_,
    fun id => ?_, fun h inLog => ?_, fun id h inLog inOuter => ?_⟩
  · rw [View.add_last]
    exact Nat.le_succ_of_le (inside.logBound h inLog)
  · rw [View.add_last]
    exact Nat.le_succ_of_le size
  · show (undoLog (v.add ident potentially hidPrev d).scopes.interpretations (outer.log v)).take _ = _
    rw [undone, List.take_append_of_le_length (by omega)]
    exact inside.undone
  · show Added (undoLog (v.add ident potentially hidPrev d).scopes.interpretations (outer.log v)) _ _
      ((v.add ident potentially hidPrev d).scopes.last - _) (some ident)
      (update v.scopes.nameInfo ident (v.scopes.last + 1))
    have count : v.scopes.last + 1 - outer.scopes.last = v.scopes.last - outer.scopes.last + 1 := by omega
    have index : outer.scopes.last + 1 + (v.scopes.last - outer.scopes.last) = v.scopes.last + 1 := by omega
    have new : cellAt (undoLog v.scopes.interpretations (outer.log v) ++
        [⟨d, potentially, hidPrev, v.scopes.nameInfo ident, v.scopes.lastInRegion⟩]) (v.scopes.last + 1) =
          ⟨d, potentially, hidPrev, v.scopes.nameInfo ident, v.scopes.lastInRegion⟩ := by
      rw [← length]
      exact cellAt_concat _
    rw [undone, View.add_last, count]
    refine ⟨ident, rfl, ?_, ?_⟩
    · rw [update_self, index]
    rw [index, new]
    show Added _ _ _ _ v.scopes.lastInRegion
      (update (update v.scopes.nameInfo ident (v.scopes.last + 1)) ident (v.scopes.nameInfo ident))
    rw [Function.update_idem, Function.update_eq_self]
    refine inside.added.congr fun i less => ?_
    exact cellAt_append _ (by omega)
  · show _ = (outer.chain id).filter (· ∉ outer.log v)
    rw [← inside.below id]
    by_cases same : id = ident
    · subst same
      have above : ¬ v.scopes.last + 1 ≤ outer.scopes.last := by omega
      rw [View.add_chain_self, List.filter_cons_of_neg (by simpa using above)]
    · rw [View.add_chain_of_ne same]
  · rw [Plain.congr (congrArg Cell.decl (cell (inside.logBound h inLog)))]
    exact inside.plainHidden h inLog
  · obtain ⟨e, i, isDecl, inChain, above, e', isDecl', same⟩ := inside.hider id h inLog inOuter
    refine ⟨e, i, ?_, View.mem_add_chain.mpr (Or.inr inChain), above, e', ?_, same⟩
    · rw [cell (inside.logBound h inLog)]
      exact isDecl
    · rw [cell (holds.inside id i inChain)]
      exact isDecl'

theorem Inside.hide (holds : v.Holds nodes) (holdsOuter : outer.Holds nodes) {l m : List Nat}
    (isChain : v.chain ident = l ++ prev :: homograph :: m) (plain : Plain nodes v.scopes homograph)
    (cover : ∃ e i, (v.scopes.cell homograph).decl = some e ∧ i ∈ v.chain ident ∧ i ≠ homograph ∧
      outer.scopes.last < i ∧ IsHomograph nodes v.scopes e i) :
    Inside nodes kind outer (v.hide ident homograph prev) := by
  have inPrev : prev ∈ v.chain ident := by
    rw [isChain]
    exact List.mem_append_right l List.mem_cons_self
  have inHomograph : homograph ∈ v.chain ident := by
    rw [isChain]
    exact List.mem_append_right l (List.mem_cons_of_mem prev List.mem_cons_self)
  have distinct := holds.nodup ident
  have different : homograph ≠ prev := by
    intro same
    rw [isChain, same] at distinct
    exact (List.nodup_cons.mp (List.nodup_append.mp distinct).2.1).1 List.mem_cons_self
  have follows : prevs v.scopes.interpretations prev = homograph := by
    have visits := holds.visits ident
    rw [isChain] at visits
    exact visits.next_eq
  have log : outer.log (v.hide ident homograph prev) = outer.log v ++ [homograph] := by
    show (v.scopes.hiddenDecls ++ [homograph]).drop outer.scopes.hiddenDecls.length = _
    rw [inside.hidden, List.append_assoc, List.drop_left]
  have undone : undoLog (v.hide ident homograph prev).scopes.interpretations (outer.log (v.hide ident homograph prev)) =
      undoLog v.scopes.interpretations (outer.log v) := by
    rw [log, undoLog_concat]
    show undoLog (restoreHidden (hideIn v.scopes.interpretations homograph prev) homograph) _ = _
    rw [restoreHidden_hideIn (holds.ne_zero inHomograph) (holds.inside _ _ inHomograph) (holds.ne_zero inPrev)
      (holds.inside _ _ inPrev) follows different]
  have cases : ∀ {h}, h ∈ outer.log (v.hide ident homograph prev) → h ∈ outer.log v ∨ h = homograph := by
    intro h inLog
    rw [log] at inLog
    rcases List.mem_append.mp inLog with inLog | inLog
    · exact Or.inl inLog
    · exact Or.inr (List.mem_singleton.mp inLog)
  have stays : ∀ {id i}, i ∈ v.chain id → i ≠ homograph → i ∈ (v.hide ident homograph prev).chain id := by
    intro id i inChain other
    by_cases same : id = ident
    · subst same
      rw [View.hide_chain_self]
      exact (List.mem_erase_of_ne other).mpr inChain
    · rw [View.hide_chain_of_ne same]
      exact inChain
  refine ⟨inside.scopes, inside.start, inside.hideIndex, inside.first, ?_, fun h inLog => ?_, ?_, ?_, ?_, fun id => ?_,
    fun h inLog => ?_, fun id h inLog inOuter => ?_⟩
  · rw [log, ← List.append_assoc, ← inside.hidden]
    rfl
  · rw [View.hide_last]
    rcases cases inLog with inLog | rfl
    · exact inside.logBound h inLog
    · exact holds.inside _ _ inHomograph
  · rw [View.hide_last]
    exact inside.size
  · rw [undone]
    exact inside.undone
  · rw [undone, View.hide_last]
    exact inside.added
  · have filtered : ∀ l : List Nat, (l.filter (· ∉ outer.log v)).filter (· ≠ homograph) =
        l.filter (· ∉ outer.log v ++ [homograph]) := by
      intro l
      rw [List.filter_filter]
      congr 1
      funext i
      by_cases inLog : i ∈ outer.log v <;> by_cases same : i = homograph <;> simp [inLog, same]
    rw [log, ← filtered, ← inside.below id, List.filter_filter]
    by_cases same : id = ident
    · subst same
      rw [View.hide_chain_self, distinct.erase_eq_filter, List.filter_filter]
      congr 1
      funext i
      by_cases isHomograph : i = homograph <;> simp [isHomograph]
    rw [View.hide_chain_of_ne same]
    apply List.filter_congr
    intro i inChain
    have other : i ≠ homograph := fun isHomograph =>
      same (holds.disjoint id ident i inChain (isHomograph ▸ inHomograph))
    simp [other]
  · rw [Plain.congr (View.hide_decl h)]
    rcases cases inLog with inLog | rfl
    · exact inside.plainHidden h inLog
    · exact plain
  · obtain ⟨e₁, n, isDecl₁, inChain₁, other₁, above₁, e₂, isDecl₂, same₂⟩ := cover
    rcases cases inLog with inLog | rfl
    · obtain ⟨e, i, isDecl, inChain, above, e', isDecl', same⟩ := inside.hider id h inLog inOuter
      by_cases hidesHider : i = homograph
      · -- What hid it is hidden itself now, by a homograph of both.
        subst hidesHider
        have isIdent : id = ident := holds.disjoint id ident i inChain inHomograph
        obtain rfl := Option.some.inj (isDecl₁.symm.trans isDecl')
        refine ⟨e, n, ?_, stays (isIdent ▸ inChain₁) other₁, above₁, e₂, ?_, Nodes.isHomograph_trans same same₂⟩
        · rw [View.hide_decl]
          exact isDecl
        · rw [View.hide_decl]
          exact isDecl₂
      · refine ⟨e, i, ?_, stays inChain hidesHider, above, e', ?_, same⟩
        · rw [View.hide_decl]
          exact isDecl
        · rw [View.hide_decl]
          exact isDecl'
    · have notLogged : h ∉ outer.log v := (inside.mem_below.mp ⟨inHomograph, holdsOuter.inside id h inOuter⟩).2
      have inOuter' : h ∈ v.chain id := (inside.mem_below.mpr ⟨inOuter, notLogged⟩).1
      have isIdent : id = ident := holds.disjoint id ident h inOuter' inHomograph
      refine ⟨e₁, n, ?_, stays (isIdent ▸ inChain₁) other₁, above₁, e₂, ?_, same₂⟩
      · rw [View.hide_decl]
        exact isDecl₁
      · rw [View.hide_decl]
        exact isDecl₂

end

omit [DecidableEq Id] in
theorem View.replace_decl (same : homograph ≤ v.scopes.last → IsHomograph nodes v.scopes decl homograph) (n : Nat) :
    ((v.replace homograph decl).scopes.cell n).decl = (v.scopes.cell n).decl ∨
      ∃ old, (v.scopes.cell n).decl = some old ∧ nodes.isHomograph decl old = true ∧
        ((v.replace homograph decl).scopes.cell n).decl = some decl := by
  rw [View.replace_cell]
  split
  · rename_i here
    obtain ⟨old, isDecl, isHomograph⟩ := same (here.1 ▸ here.2.2)
    rw [here.1]
    exact Or.inr ⟨old, isDecl, isHomograph, rfl⟩
  · exact Or.inl rfl

theorem Inside.replace (inside : Inside nodes kind outer v)
    (plain : homograph ≤ v.scopes.last → Plain nodes v.scopes homograph)
    (same : homograph ≤ v.scopes.last → IsHomograph nodes v.scopes decl homograph)
    (overloadable : nodes.isOverloadable decl = true) :
    Inside nodes kind (outer.replace homograph decl) (v.replace homograph decl) := by
  have log : (outer.replace homograph decl).log (v.replace homograph decl) = outer.log v := rfl
  have undone : undoLog (v.replace homograph decl).scopes.interpretations (outer.log v) =
      replaceIn (undoLog v.scopes.interpretations (outer.log v)) homograph decl := replaceIn_undoLog _
  have saved : kind.saved (outer.replace homograph decl).scopes = kind.saved outer.scopes := by
    cases kind <;> rfl
  have first : kind.first (outer.replace homograph decl).scopes = kind.first outer.scopes := by
    cases kind with
    | region => rfl
    | start => exact congrArg (· + 1) View.replace_last
  refine ⟨?_, ?_, inside.hideIndex, ?_, inside.hidden, fun h inLog => ?_, ?_, ?_, ?_, fun id => ?_, fun h inLog => ?_,
    fun id h inLog inOuter => ?_⟩
  · rw [saved]
    exact inside.scopes
  · rw [View.replace_last]
    exact inside.start
  · rw [first]
    exact inside.first
  · rw [View.replace_last]
    exact inside.logBound h inLog
  · rw [View.replace_last, View.replace_last]
    exact inside.size
  · rw [log, undone, View.replace_last, replaceIn_take, inside.undone]
    rfl
  · rw [log, undone, View.replace_last, View.replace_last]
    exact inside.added.replaceIn
  · rw [View.replace_last, log]
    exact inside.below id
  · rw [View.replace_plain plain overloadable]
    exact inside.plainHidden h inLog
  · obtain ⟨e, i, isDecl, inChain, above, e', isDecl', isHomograph⟩ := inside.hider id h inLog inOuter
    -- Whichever of the two declarations is replaced, the new one is a homograph of the old one.
    have here : ∃ f, ((v.replace homograph decl).scopes.cell h).decl = some f ∧ nodes.isHomograph f e' = true := by
      rcases View.replace_decl same h with stays | ⟨old, isOld, sameOld, isNew⟩
      · exact ⟨e, stays.trans isDecl, isHomograph⟩
      · obtain rfl := Option.some.inj (isOld.symm.trans isDecl)
        exact ⟨decl, isNew, Nodes.isHomograph_trans sameOld isHomograph⟩
    obtain ⟨f, isF, isHomograph'⟩ := here
    have there : IsHomograph nodes (v.replace homograph decl).scopes f i := by
      rcases View.replace_decl same i with stays | ⟨old, isOld, sameOld, isNew⟩
      · exact ⟨e', stays.trans isDecl', isHomograph'⟩
      · obtain rfl := Option.some.inj (isOld.symm.trans isDecl')
        exact ⟨decl, isNew, Nodes.isHomograph_trans isHomograph' (Nodes.isHomograph_symm sameOld)⟩
    refine ⟨f, i, isF, inChain, ?_, there⟩
    rw [View.replace_last]
    exact above

theorem Inside.data (inside : Inside nodes kind outer v) (bound : n ≤ outer.scopes.last) :
    (outer.scopes.cell n).data = (v.scopes.cell n).data := by
  have taken : outer.scopes.cell n = cellAt (undoLog v.scopes.interpretations (outer.log v)) n := by
    show cellAt outer.scopes.interpretations n = _
    rw [← inside.undone]
    cases n with
    | zero => rfl
    | succ n => simp [cellAt, List.getD_eq_getElem?_getD, Nat.lt_of_succ_le bound]
  rw [taken]
  exact data_undoLog _ n

end Ghdl.SemScopes
