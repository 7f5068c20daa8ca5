import Ghdl.Vhdl.ScopeRegions

/-!
# Nested scopes

Between two operations each scope that is open is inside the one around it. A declaration that is replaced is replaced
in all of them; every other step is one of the innermost scope only. A homograph of an outer scope that is found from
the innermost one is the first homograph there, too.
-/

namespace Ghdl.SemScopes

open Linked Fallible

variable {Iir Id : Type} [DecidableEq Iir] [DecidableEq Id]

/-- A state, and the states around it from the inner ones to the outer ones. -/
inductive Nest (nodes : Nodes Iir) : View Iir Id → List (View Iir Id) → Prop
  | outermost {v : View Iir Id} (holds : v.Holds nodes) (scopes : v.scopes.scopes = [])
      (start : v.scopes.currentRegionStart = 1) : Nest nodes v []
  | inner {kind : ScopeKind} {outer v : View Iir Id} {outers : List (View Iir Id)} (inside : Inside nodes kind outer v)
      (holds : v.Holds nodes) (nest : Nest nodes outer outers) : Nest nodes v (outer :: outers)

variable {nodes : Nodes Iir} {flags : Flags} {kind : ScopeKind} {outer v : View Iir Id} {outers : List (View Iir Id)}
  {decl : Iir} {ident : Id} {potentially : Bool} {homograph : Nat}

theorem Nest.holds (nest : Nest nodes v outers) : v.Holds nodes := by
  cases nest with
  | outermost holds _ _ | inner _ holds _ => exact holds

theorem Nest.start_le (nest : Nest nodes v outers) : v.scopes.currentRegionStart ≤ v.scopes.last + 1 := by
  cases nest with
  | outermost _ _ start =>
    rw [start]
    exact Nat.le_add_left 1 _
  | inner inside _ _ =>
    have start := inside.start
    have size := inside.size
    omega

theorem nest_empty : Nest nodes (⟨Scopes.empty, fun _ => []⟩ : View Iir Id) [] := by
  refine .outermost ⟨fun _ => rfl, fun _ => List.Pairwise.nil, fun _ i inside => absurd inside List.not_mem_nil,
    fun _ _ i inside => absurd inside List.not_mem_nil, fun n => ?_, Nat.le_refl 1, Nat.le_refl 1,
    fun id l i j m isChain => ?_⟩ rfl rfl
  · cases n <;> exact Nat.le_refl 0
  · exact absurd isChain (by simp)

/-- The state after an action. -/
def View.perform (v : View Iir Id) (decl : Iir) (ident : Id) (potentially : Bool) : Action Iir → View Iir Id
  | .discard | .report _ => v
  | .add hidPrev d => v.add ident potentially hidPrev d
  | .replace homograph => v.replace homograph decl
  | .addAndHide homograph prevHomograph =>
    (v.add ident potentially false (some decl)).hide ident homograph
      (if prevHomograph = noInterpretation then v.scopes.last + 1 else prevHomograph)

/-- The states around it after an action. -/
def outersAfter (decl : Iir) (outers : List (View Iir Id)) : Action Iir → List (View Iir Id)
  | .replace homograph => outers.map fun u => u.replace homograph decl
  | _ => outers

variable {before after : List Nat}

theorem FirstHomograph.hidden_at (potentially : Bool) (holds : v.Holds nodes) {prev : Nat}
    (first : FirstHomograph nodes v.scopes decl (v.chain ident) before homograph after)
    (isPrev : prev = before.getLastD noInterpretation) : ∃ l, (v.add ident potentially false (some decl)).chain ident =
        l ++ (if prev = noInterpretation then v.scopes.last + 1 else prev) :: homograph :: after ∧
      ((v.add ident potentially false (some decl)).scopes.cell
        (if prev = noInterpretation then v.scopes.last + 1 else prev)).prevHidden = false := by
  rw [View.add_chain_self, first.split]
  rcases List.eq_nil_or_concat before with rfl | ⟨l, p, rfl⟩
  · rw [isPrev, List.getLastD_nil, if_pos rfl]
    exact ⟨[], rfl, by rw [View.add_cell_last]⟩
  have isLast : prev = p := by simpa using isPrev
  have inChain : p ∈ v.chain ident := by
    rw [first.split]
    exact List.mem_append_left _ (by simp)
  have positive : p ≠ noInterpretation := holds.ne_zero inChain
  rw [isLast, if_neg positive]
  refine ⟨(v.scopes.last + 1) :: l, by simp, ?_⟩
  rw [View.add_cell (holds.inside ident p inChain)]
  exact (first.isOpen p (by simp)).2

/-- What `Add_Name` decides to do is done. -/
theorem perform_eq (holds : v.Holds nodes) {a : Action Iir} (supposes : a.Supposes nodes flags v decl ident potentially) :
    perform v.scopes decl ident potentially a = .ok (v.perform decl ident potentially a).scopes := by
  cases a with
  | discard | report message | add hidPrev d | replace homograph => rfl
  | addAndHide homograph prev =>
    obtain ⟨-, ⟨before, after, first, isPrev⟩, -⟩ := supposes
    obtain ⟨l, isChain, -⟩ := first.hidden_at potentially holds isPrev
    have added : (v.add ident potentially false (some decl)).Holds nodes :=
      holds.add fun hidden => absurd hidden Bool.false_ne_true
    have visits := added.visits ident
    rw [isChain] at visits
    have last : (addNewInterpretation v.scopes ident potentially false (some decl)).last = v.scopes.last + 1 :=
      show (v.add ident potentially false (some decl)).scopes.last = v.scopes.last + 1 from View.add_last
    unfold perform hideHomograph
    dsimp only
    rw [last]
    exact if_pos visits.next_eq

section

variable (nest : Nest nodes v outers)
include nest

theorem Nest.replace (plain : homograph ≤ v.scopes.last → Plain nodes v.scopes homograph)
    (same : homograph ≤ v.scopes.last → IsHomograph nodes v.scopes decl homograph)
    (overloadable : nodes.isOverloadable decl = true) :
    Nest nodes (v.replace homograph decl) (outers.map fun u => u.replace homograph decl) := by
  induction nest with
  | outermost holds scopes start => exact .outermost (holds.replace plain overloadable) scopes start
  | inner inside holds nest ih =>
    refine .inner (inside.replace plain same overloadable) (holds.replace plain overloadable) (ih ?_ ?_)
    · intro bound
      have data := congrArg Cell.decl (inside.data bound)
      exact (Plain.congr data).mpr (plain (Nat.le_trans bound inside.size))
    intro bound
    have data := congrArg Cell.decl (inside.data bound)
    obtain ⟨d, isDecl, isHomograph⟩ := same (Nat.le_trans bound inside.size)
    exact ⟨d, data.trans isDecl, isHomograph⟩

theorem Nest.perform {a : Action Iir} (supposes : a.Supposes nodes flags v decl ident potentially) :
    Nest nodes (v.perform decl ident potentially a) (outersAfter decl outers a) := by
  have holds := nest.holds
  cases a with
  | discard | report message => exact nest
  | add hidPrev d =>
    have added : (v.add ident potentially hidPrev d).Holds nodes := by
      apply holds.add
      intro hidden
      subst hidden
      exact supposes.2
    cases nest with
    | outermost _ scopes start => exact .outermost added scopes start
    | inner inside _ nest => exact .inner (inside.add holds) added nest
  | replace homograph =>
    obtain ⟨overloadable, ⟨before, after, first⟩, -⟩ := supposes
    exact nest.replace (fun _ => first.plainHomograph) (fun _ => first.isHomograph) overloadable
  | addAndHide homograph prev =>
    obtain ⟨overloadable, ⟨before, after, first, isPrev⟩, -⟩ := supposes
    obtain ⟨l, isChain, isOpen⟩ := first.hidden_at potentially holds isPrev
    have added : (v.add ident potentially false (some decl)).Holds nodes :=
      holds.add fun hidden => absurd hidden Bool.false_ne_true
    have inChain : homograph ∈ v.chain ident := by
      rw [first.split]
      exact List.mem_append_right before List.mem_cons_self
    have bound := holds.inside ident homograph inChain
    have cell : (v.add ident potentially false (some decl)).scopes.cell homograph = v.scopes.cell homograph :=
      View.add_cell bound
    cases nest with
    | outermost _ scopes start => exact .outermost (added.hide isChain isOpen) scopes start
    | inner inside _ nest =>
      refine .inner ((inside.add holds).hide added nest.holds isChain ?_ ?_) (added.hide isChain isOpen) nest
      · exact (Plain.congr (congrArg Cell.decl cell)).mpr first.plainHomograph
      obtain ⟨e, isDecl, isHomograph⟩ := first.isHomograph
      have size := inside.size
      refine ⟨e, v.scopes.last + 1, ?_, View.mem_add_chain.mpr (Or.inl ⟨rfl, rfl⟩), by omega, by omega, decl, ?_,
        Nodes.isHomograph_symm isHomograph⟩
      · rw [cell]
        exact isDecl
      · rw [View.add_cell_last]

theorem Nest.openRegion :
    Nest nodes ⟨openDeclarativeRegion v.scopes, v.chain⟩ (v :: outers) := by
  have holds := nest.holds
  have inside : Inside nodes .region v ⟨openDeclarativeRegion v.scopes, v.chain⟩ :=
    Inside.entered rfl rfl rfl rfl rfl rfl rfl rfl holds
  refine .inner inside ?_ nest
  exact ⟨holds.visits, holds.decreasing, holds.inside, holds.disjoint, holds.bounded, holds.first, holds.reach, holds.cut⟩

theorem Nest.push : Nest nodes ⟨pushInterpretations v.scopes, v.chain⟩ (v :: outers) := by
  have holds := nest.holds
  have inside : Inside nodes .start v ⟨pushInterpretations v.scopes, v.chain⟩ :=
    Inside.entered rfl rfl rfl rfl rfl rfl rfl rfl holds
  refine .inner inside ⟨holds.visits, holds.decreasing, holds.inside, holds.disjoint, holds.bounded,
    Nat.succ_le_succ (Nat.zero_le _), Nat.le_refl _, fun id l i j m isChain _ valid => ?_⟩ nest
  -- Nothing from before is valid.
  have bound := holds.inside id j (by rw [isChain]; simp)
  have above : v.scopes.last + 1 ≤ j := valid
  omega

end

theorem Nest.closeRegion {s : Scopes Iir Id} (nest : Nest nodes v outers) (run : closeDeclarativeRegion v.scopes = .ok s) :
    ∃ outer rest, outers = outer :: rest ∧ Inside nodes .region outer v ∧ s = outer.scopes ∧ Nest nodes outer rest := by
  cases nest with
  | outermost holds scopes _ =>
    unfold closeDeclarativeRegion at run
    rw [scopes] at run
    exact absurd run (by simp)
  | @inner kind outer _ rest inside holds nest =>
    cases kind with
    | region =>
      rw [inside.close] at run
      exact ⟨outer, rest, rfl, inside, (Except.ok.inj run).symm, nest⟩
    | start =>
      unfold closeDeclarativeRegion at run
      rw [inside.scopes] at run
      exact absurd run (by simp [ScopeKind.saved])

theorem Nest.pop {s : Scopes Iir Id} (nest : Nest nodes v outers) (run : popInterpretations v.scopes = .ok s) :
    ∃ outer rest, outers = outer :: rest ∧ Inside nodes .start outer v ∧ s = outer.scopes ∧ Nest nodes outer rest := by
  cases nest with
  | outermost holds scopes _ =>
    unfold popInterpretations at run
    rw [scopes] at run
    exact absurd run (by simp)
  | @inner kind outer _ rest inside holds nest =>
    unfold popInterpretations at run
    rw [inside.scopes] at run
    cases kind with
    | region => exact absurd run (by simp [ScopeKind.saved])
    | start =>
      dsimp only [ScopeKind.saved] at run
      split at run
      · rename_i may
        obtain ⟨-, last, start, hideIndex, -⟩ := may
        refine ⟨outer, rest, rfl, inside, ?_, nest⟩
        rw [← Except.ok.inj run]
        have size : v.scopes.last = outer.scopes.last := by
          have isStart := inside.start
          omega
        have log : outer.log v = [] := by
          have isIndex := inside.hideIndex
          have hidden := congrArg List.length inside.hidden
          rw [List.length_append] at hidden
          exact List.eq_nil_of_length_eq_zero (by omega)
        have cells := inside.undone
        have added := inside.added
        have hidden := inside.hidden
        rw [log] at cells added hidden
        rw [size, Nat.sub_self] at added
        have whole : v.scopes.interpretations = outer.scopes.interpretations := by
          rw [← cells]
          exact (List.take_of_length_le (Nat.le_of_eq size)).symm
        rw [List.append_nil] at hidden
        show (⟨v.scopes.interpretations, v.scopes.nameInfo, _, _, _, v.scopes.hiddenDecls, _, _⟩ : Scopes Iir Id) = _
        rw [whole, added.2, hidden]
      · exact absurd run (by simp)

/-- No other visible interpretation of the identifier has the declaration. -/
def Fresh (s : Scopes Iir Id) (ident : Id) (decl : Iir) (homograph : Nat) : Prop :=
  ∀ i ∈ s.visible ident, i ≠ homograph → (s.cell i).decl ≠ some decl

omit [DecidableEq Id] [DecidableEq Iir] in
theorem mem_before {l : List Nat} {i j : Nat} (decreasing : l.Pairwise (· > ·))
    (split : l = before ++ j :: after) (inside : i ∈ l) (greater : j < i) : i ∈ before := by
  rw [split] at inside decreasing
  rcases List.mem_append.mp inside with inBefore | inRest
  · exact inBefore
  · rcases List.mem_cons.mp inRest with rfl | inAfter
    · exact absurd greater (Nat.lt_irrefl _)
    · have less := (List.pairwise_cons.mp (List.pairwise_append.mp decreasing).2.1).1 i inAfter
      omega

omit [DecidableEq Id] [DecidableEq Iir] in
theorem greater_of_mem_before {l : List Nat} {i j : Nat} (decreasing : l.Pairwise (· > ·))
    (split : l = before ++ j :: after) (inside : i ∈ before) : j < i := by
  rw [split] at decreasing
  exact (List.pairwise_append.mp decreasing).2.2 i inside j List.mem_cons_self

omit [DecidableEq Id] in
theorem FirstHomograph.visible_eq (holds : v.Holds nodes)
    (first : FirstHomograph nodes v.scopes decl (v.chain ident) before homograph after) :
    v.scopes.visible ident = v.scopes.follow (v.chain ident) := by
  have plainHead : Plain nodes v.scopes (v.scopes.nameInfo ident) := by
    rw [holds.nameInfo_eq, first.split]
    cases before with
    | nil => exact first.plainHomograph
    | cons i before => exact first.plain i List.mem_cons_self
  obtain ⟨d, isDecl, -⟩ := plainHead
  rw [holds.visible_eq, if_neg (by simp [Scopes.isConflict, isDecl])]

omit [DecidableEq Id] in
theorem FirstHomograph.mem_visible (holds : v.Holds nodes)
    (first : FirstHomograph nodes v.scopes decl (v.chain ident) before homograph after) :
    homograph ∈ v.scopes.visible ident := by
  rw [first.visible_eq holds, first.split]
  exact Scopes.follow_mem first.isOpen first.valid

theorem FirstHomograph.inOuter (inside : Inside nodes kind outer v) (holds : v.Holds nodes) (holdsOuter : outer.Holds nodes) (first : FirstHomograph nodes v.scopes decl (v.chain ident) before homograph after)
    (bound : homograph ≤ outer.scopes.last) :
    ∃ before' after', FirstHomograph nodes outer.scopes decl (outer.chain ident) before' homograph after' := by
  have inChain : homograph ∈ v.chain ident := by
    rw [first.split]
    exact List.mem_append_right before List.mem_cons_self
  have valids : outer.scopes.firstInterpretation = v.scopes.firstInterpretation := by
    have isFirst := inside.first
    have valid : v.scopes.firstInterpretation ≤ homograph := first.valid
    cases kind with
    | region => exact isFirst.symm
    | start =>
      have above : v.scopes.firstInterpretation = outer.scopes.last + 1 := isFirst
      omega
  obtain ⟨inOuter, notLogged⟩ := inside.mem_below.mp ⟨inChain, bound⟩
  obtain ⟨before', after', split⟩ := List.append_of_mem inOuter
  have small : ∀ i ∈ before', homograph < i ∧ i ≤ outer.scopes.last := by
    intro i inBefore
    refine ⟨greater_of_mem_before (holdsOuter.decreasing ident) split inBefore, holdsOuter.inside ident i ?_⟩
    rw [split]
    exact List.mem_append_left _ inBefore
  have decls : ∀ i ≤ outer.scopes.last, (outer.scopes.cell i).decl = (v.scopes.cell i).decl := by
    intro i le
    have same := congrArg Cell.decl (inside.data le)
    exact same
  have stays : ∀ i ∈ before', i ∉ outer.log v → i ∈ before := by
    intro i inBefore notLogged
    have inOuter : i ∈ outer.chain ident := by
      rw [split]
      exact List.mem_append_left _ inBefore
    exact mem_before (holds.decreasing ident) first.split (inside.mem_below.mpr ⟨inOuter, notLogged⟩).1 (small i inBefore).1
  have plain : ∀ i ∈ before', Plain nodes outer.scopes i := by
    intro i inBefore
    rw [Plain.congr (decls i (small i inBefore).2)]
    by_cases logged : i ∈ outer.log v
    · exact inside.plainHidden i logged
    · exact first.plain i (stays i inBefore logged)
  have plainHomograph : Plain nodes outer.scopes homograph := (Plain.congr (decls homograph bound)).mpr first.plainHomograph
  refine ⟨before', after', split, fun i inBefore => ?_, plain, fun i inBefore isHomograph => ?_, ?_, plainHomograph, ?_⟩
  · have valid : v.scopes.firstInterpretation ≤ homograph := first.valid
    refine ⟨?_, ?_⟩
    · show outer.scopes.firstInterpretation ≤ i
      have above := (small i inBefore).1
      omega
    -- A member that hides those before it would be followed by one that cannot be overloaded.
    by_contra hides
    rw [Bool.not_eq_false] at hides
    obtain ⟨l, m, isBefore⟩ := List.append_of_mem inBefore
    have next : ∃ j rest, m ++ homograph :: after' = j :: rest ∧ Plain nodes outer.scopes j ∧ homograph ≤ j := by
      cases m with
      | nil => exact ⟨homograph, after', rfl, plainHomograph, Nat.le_refl _⟩
      | cons j m =>
        have inJ : j ∈ before' := by
          rw [isBefore]
          simp
        exact ⟨j, m ++ homograph :: after', rfl, plain j inJ, Nat.le_of_lt (small j inJ).1⟩
    obtain ⟨j, rest, isRest, plainJ, above⟩ := next
    have isChain : outer.chain ident = l ++ i :: j :: rest := by
      rw [split, isBefore, List.append_assoc, List.cons_append, isRest]
    refine holdsOuter.cut ident l i j rest isChain hides ?_ (plain i inBefore) plainJ
    show outer.scopes.firstInterpretation ≤ j
    omega
  · by_cases logged : i ∈ outer.log v
    · have inOuter' : i ∈ outer.chain ident := by
        rw [split]
        exact List.mem_append_left _ inBefore
      obtain ⟨e, n, isDecl, inN, above, e', isDecl', same⟩ := inside.hider ident i logged inOuter'
      obtain ⟨d, isD, sameD⟩ := isHomograph
      rw [decls i (small i inBefore).2, isDecl] at isD
      obtain rfl := Option.some.inj isD
      have greater : homograph < n := Nat.lt_of_le_of_lt bound above
      exact first.others n (mem_before (holds.decreasing ident) first.split inN greater)
        ⟨e', isDecl', Nodes.isHomograph_trans sameD same⟩
    · obtain ⟨d, isD, sameD⟩ := isHomograph
      rw [decls i (small i inBefore).2] at isD
      exact first.others i (stays i inBefore logged) ⟨d, isD, sameD⟩
  · show outer.scopes.firstInterpretation ≤ homograph
    rw [valids]
    exact first.valid
  · obtain ⟨d, isD, sameD⟩ := first.isHomograph
    exact ⟨d, (decls homograph bound).trans isD, sameD⟩

theorem Fresh.inOuter (inside : Inside nodes kind outer v) (holds : v.Holds nodes) (holdsOuter : outer.Holds nodes) (first : FirstHomograph nodes v.scopes decl (v.chain ident) before homograph after)
    (bound : homograph ≤ outer.scopes.last) (fresh : Fresh v.scopes ident decl homograph) :
    Fresh outer.scopes ident decl homograph := by
  intro i inVisible other isDecl
  obtain ⟨before', after', first'⟩ := first.inOuter inside holds holdsOuter bound
  rw [first'.visible_eq holdsOuter] at inVisible
  obtain ⟨l, m, split, isOpen, valid⟩ := Scopes.follow_split inVisible
  have inOuter : i ∈ outer.chain ident := by
    rw [split]
    exact List.mem_append_right l List.mem_cons_self
  have le := holdsOuter.inside ident i inOuter
  have decls : ∀ i ≤ outer.scopes.last, (outer.scopes.cell i).data = (v.scopes.cell i).data := fun i le => inside.data le
  have isDecl' : (v.scopes.cell i).decl = some decl := (congrArg Cell.decl (decls i le)).symm.trans isDecl
  have notLogged : i ∉ outer.log v := by
    intro logged
    obtain ⟨e, n, isE, inN, above, isHomograph⟩ := inside.hider ident i logged inOuter
    obtain rfl := Option.some.inj (isDecl'.symm.trans isE)
    exact first.others n (mem_before (holds.decreasing ident) first.split inN (Nat.lt_of_le_of_lt bound above)) isHomograph
  have inChain := (inside.mem_below.mpr ⟨inOuter, notLogged⟩).1
  apply fresh i ?_ other isDecl'
  rw [first.visible_eq holds]
  obtain ⟨x, y, split'⟩ := List.append_of_mem inChain
  rw [split']
  have sameFirst : outer.scopes.firstInterpretation = v.scopes.firstInterpretation := by
    have isFirst := inside.first
    have validH : v.scopes.firstInterpretation ≤ homograph := first.valid
    cases kind with
    | region => exact isFirst.symm
    | start =>
      have above : v.scopes.firstInterpretation = outer.scopes.last + 1 := isFirst
      omega
  refine Scopes.follow_mem (fun k inX => ?_) ?_
  · have greater := greater_of_mem_before (holds.decreasing ident) split' inX
    have inK : k ∈ v.chain ident := by
      rw [split']
      exact List.mem_append_left _ inX
    by_cases low : k ≤ outer.scopes.last
    · have inOuterK := (inside.mem_below.mp ⟨inK, low⟩).1
      obtain ⟨validK, openK⟩ := isOpen k (mem_before (holdsOuter.decreasing ident) split inOuterK greater)
      refine ⟨?_, (congrArg Cell.prevHidden (decls k low)).symm.trans openK⟩
      show v.scopes.firstInterpretation ≤ k
      rw [← sameFirst]
      exact validK
    · exact first.isOpen k (mem_before (holds.decreasing ident) first.split inK (by omega))
  · show v.scopes.firstInterpretation ≤ i
    rw [← sameFirst]
    exact valid

end Ghdl.SemScopes
