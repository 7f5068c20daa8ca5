import Ghdl.Vhdl.ScopeRuns

/-!
# What a region leaves

While a region is open, the state that it was opened in is still one of the nested scopes. Its chains stay the same, and
only one rule changes something of it: before VHDL 2008, a potentially visible declaration takes the cell of an implicit
one of the same parent, whatever region the cell belongs to. Closing the region does not give the cell back.
-/

namespace Ghdl.SemScopes

open Linked Fallible Transition

variable {Iir Id : Type}

/-- The operations close what they open, and this many scopes more, and nothing else. -/
def Balanced : Nat → List (Operation Iir Id) → Prop
  | n, [] => n = 0
  | n, .addName .. :: operations => Balanced n operations
  | n, .openRegion :: operations | n, .push :: operations => Balanced (n + 1) operations
  | 0, .closeRegion :: _ | 0, .pop :: _ => False
  | n + 1, .closeRegion :: operations | n + 1, .pop :: operations => Balanced n operations

variable {nodes : Nodes Iir} {flags : Flags} {v u w start : View Iir Id} {outers : List (View Iir Id)} {decl : Iir}
  {ident : Id} {potentially : Bool} {homograph : Nat}

/-- The implicit declarations of some cells were replaced by declarations that are not implicit. -/
structure Drift (nodes : Nodes Iir) (start w : View Iir Id) : Prop where
  size : w.scopes.last = start.scopes.last
  visible : ∀ id, w.scopes.visible id = start.scopes.visible id
  decls : ∀ i, (w.scopes.cell i).decl = (start.scopes.cell i).decl ∨
    (∃ d, (start.scopes.cell i).decl = some d ∧ nodes.isImplicitSubprogram d = true) ∧
      ∃ d, (w.scopes.cell i).decl = some d ∧ nodes.isImplicitSubprogram d = false

theorem Drift.refl (nodes : Nodes Iir) (v : View Iir Id) : Drift nodes v v := ⟨rfl, fun _ => rfl, fun _ => Or.inl rfl⟩

variable [DecidableEq Iir] [DecidableEq Id]

/-- A step does not replace the declaration of a cell from before. -/
def Leaves (nodes : Nodes Iir) (flags : Flags) (bound : Nat) (s : Scopes Iir Id) : Operation Iir Id → Prop
  | .addName decl ident potentially =>
    ∀ homograph ≤ bound, addNameAction nodes flags s decl ident potentially ≠ .ok (.replace homograph)
  | _ => True

/-- A cell of an outer scope is only replaced by the rule from before VHDL 2008. -/
theorem Nest.overrides (nest : Nest nodes v outers) (inside : u ∈ outers) (bound : homograph ≤ u.scopes.last)
    (place : v.scopes.InCurrentRegion homograph ∨ Overrides nodes flags v.scopes decl potentially homograph) :
    Overrides nodes flags v.scopes decl potentially homograph := by
  rcases place with current | overrides
  · cases nest with
    | outermost _ _ _ => exact absurd inside List.not_mem_nil
    | @inner kind outer _ rest scope holds nest =>
      have above : v.scopes.currentRegionStart ≤ homograph := current
      have isStart := scope.start
      have small : u.scopes.last ≤ outer.scopes.last := by
        rcases List.mem_cons.mp inside with rfl | deeper
        · exact Nat.le_refl _
        · exact nest.last_le deeper
      omega
  · exact overrides

theorem Nest.decl_eq (nest : Nest nodes v outers) (inside : u ∈ outers) {i : Nat} (bound : i ≤ u.scopes.last) :
    (u.scopes.cell i).decl = (v.scopes.cell i).decl := by
  induction nest with
  | outermost _ _ _ => exact absurd inside List.not_mem_nil
  | inner scope _ nest ih =>
    rcases List.mem_cons.mp inside with rfl | deeper
    · have data := congrArg Cell.decl (scope.data bound)
      exact data
    · have data := congrArg Cell.decl (scope.data (Nat.le_trans bound (nest.last_le deeper)))
      exact (ih deeper).trans data

omit [DecidableEq Iir] [DecidableEq Id] in
theorem View.replace_beyond (outside : w.scopes.last < homograph) : w.replace homograph decl = w := by
  have cells : replaceIn w.scopes.interpretations homograph decl = w.scopes.interpretations := replaceIn_beyond outside
  obtain ⟨s, chain⟩ := w
  unfold View.replace replaceHomograph
  exact congrArg (fun cells => (⟨{ s with interpretations := cells }, chain⟩ : View Iir Id)) cells

theorem Drift.replace (drift : Drift nodes start w) (nest : Nest nodes v outers) (inside : w ∈ outers)
    (first : ∃ before after, FirstHomograph nodes v.scopes decl (v.chain ident) before homograph after)
    (overloadable : nodes.isOverloadable decl = true)
    (place : v.scopes.InCurrentRegion homograph ∨ Overrides nodes flags v.scopes decl potentially homograph) :
    Drift nodes start (w.replace homograph decl) := by
  by_cases bound : homograph ≤ w.scopes.last
  · obtain ⟨⟨before, after, isFirst⟩, -⟩ := nest.firstInOuters first inside bound
    obtain ⟨-, -, -, explicit, current, isCurrent, -, implicit⟩ := nest.overrides inside bound place
    rw [← nest.decl_eq inside bound] at isCurrent
    have visible := View.visible_replace (nest.holds_of_mem inside) (fun _ => isFirst.plainHomograph) overloadable
    refine ⟨View.replace_last.trans drift.size, fun id => (visible id).trans (drift.visible id), fun i => ?_⟩
    rw [View.replace_cell]
    split
    · rename_i here
      refine Or.inr ⟨?_, decl, rfl, explicit⟩
      rw [here.1]
      rcases drift.decls homograph with same | ⟨-, d, isDecl, notImplicit⟩
      · exact ⟨current, same.symm.trans isCurrent, implicit⟩
      · obtain rfl := Option.some.inj (isCurrent.symm.trans isDecl)
        exact absurd implicit (by simp [notImplicit])
    · exact drift.decls i
  · rw [View.replace_beyond (by omega)]
    exact drift

theorem Drift.changed (drift : Drift nodes start w) (nest : Nest nodes v outers) (inside : w ∈ outers)
    (first : ∃ before after, FirstHomograph nodes v.scopes decl (v.chain ident) before homograph after)
    (overloadable : nodes.isOverloadable decl = true)
    (place : v.scopes.InCurrentRegion homograph ∨ Overrides nodes flags v.scopes decl potentially homograph)
    (bound : homograph ≤ w.scopes.last) :
    (w.replace homograph decl).scopes.declarations ident ≠ start.scopes.declarations ident := by
  intro same
  obtain ⟨⟨before, after, isFirst⟩, -⟩ := nest.firstInOuters first inside bound
  obtain ⟨-, -, -, explicit, current, isCurrent, -, implicit⟩ := nest.overrides inside bound place
  have holds := nest.holds_of_mem inside
  have inVisible := isFirst.mem_visible holds
  have replaced := drift.replace nest inside first overloadable place
  have positive := holds.ne_zero (holds.visible_subset inVisible)
  have isDecl : ((w.replace homograph decl).scopes.cell homograph).decl = some decl := by
    rw [View.replace_cell, if_pos ⟨rfl, positive, bound⟩]
  unfold Scopes.declarations at same
  rw [replaced.visible] at same
  rw [drift.visible] at inVisible
  have here : ((w.replace homograph decl).scopes.cell homograph).decl = (start.scopes.cell homograph).decl :=
    List.map_inj_left.mp same homograph inVisible
  have isStart : (start.scopes.cell homograph).decl = some current := by
    rw [← nest.decl_eq inside bound] at isCurrent
    rcases drift.decls homograph with unchanged | ⟨-, d, isD, notImplicit⟩
    · exact unchanged.symm.trans isCurrent
    · obtain rfl := Option.some.inj (isCurrent.symm.trans isD)
      exact absurd implicit (by simp [notImplicit])
  rw [isDecl, isStart] at here
  obtain rfl := Option.some.inj here
  exact absurd implicit (by simp [explicit])

/-- The state is so many scopes further inside than a region, around which the scopes start with this one. -/
def InRegion (nodes : Nodes Iir) (start : View Iir Id) (depth : Nat) (s : Scopes Iir Id) (w : View Iir Id) : Prop :=
  ∃ v inner rest, v.scopes = s ∧ Nest nodes v (inner ++ w :: rest) ∧ inner.length = depth ∧
    (s.scopes.map ScopeCell.kind)[depth]? = some .region ∧ Drift nodes start w

/-- The same declarations are visible as at the start. -/
def Unchanged (start w : View Iir Id) : Prop := ∀ id, w.scopes.declarations id = start.scopes.declarations id

omit [DecidableEq Iir] in
theorem View.perform_scopes (a : Action Iir) : (v.perform decl ident potentially a).scopes.scopes = v.scopes.scopes := by
  cases a <;> rfl

variable {depth : Nat} {s s' : Scopes Iir Id} {op : Operation Iir Id} {operations : List (Operation Iir Id)}

theorem InRegion.leave {scopeKind : ScopeKind} {outer : View Iir Id} {inner rest : List (View Iir Id)}
    (split : inner ++ w :: rest = outer :: outers) (length : inner.length = depth + 1)
    (kind : (v.scopes.scopes.map ScopeCell.kind)[depth + 1]? = some .region) (scope : Inside nodes scopeKind outer v)
    (nested : Nest nodes outer outers) (drift : Drift nodes start w) : InRegion nodes start depth outer.scopes w := by
  cases inner with
  | nil => exact absurd length (by simp)
  | cons u inner =>
    obtain ⟨rfl, isOuters⟩ := List.cons.inj split
    rw [← isOuters] at nested
    refine ⟨u, inner, rest, rfl, nested, Nat.succ.inj length, ?_, drift⟩
    rw [scope.scopes, List.map_cons, List.getElem?_cons_succ] at kind
    exact kind

theorem InRegion.step (region : InRegion nodes start depth s w) (balanced : Balanced depth (op :: operations))
    (run : execute nodes flags s op = .ok s') : ∃ depth' w', Balanced depth' operations ∧ InRegion nodes start depth' s' w' ∧
      (Unchanged start w' ↔ Unchanged start w ∧ Leaves nodes flags start.scopes.last s op) := by
  obtain ⟨v, inner, rest, rfl, nest, length, kind, drift⟩ := region
  have inside : w ∈ inner ++ w :: rest := List.mem_append_right inner List.mem_cons_self
  cases op with
  | addName decl ident potentially =>
    obtain ⟨a, action, performed⟩ := bind_ok.mp run
    have supposes := addNameAction_supposes nest.holds action
    rw [perform_eq nest.holds supposes] at performed
    obtain rfl := Except.ok.inj performed
    have nested := nest.perform supposes
    have kinds : ((v.perform decl ident potentially a).scopes.scopes.map ScopeCell.kind)[depth]? = some .region := by
      rw [View.perform_scopes]
      exact kind
    -- An action that replaces nothing leaves the scopes around as they are.
    have others : (∀ homograph, a ≠ .replace homograph) → outersAfter decl (inner ++ w :: rest) a = inner ++ w :: rest →
        ∃ depth' w', Balanced depth' operations ∧ InRegion nodes start depth' (v.perform decl ident potentially a).scopes w' ∧
          (Unchanged start w' ↔ Unchanged start w ∧
            Leaves nodes flags start.scopes.last v.scopes (.addName decl ident potentially)) := by
      intro notReplace same
      rw [same] at nested
      refine ⟨depth, w, balanced, ⟨_, inner, rest, rfl, nested, length, kinds, drift⟩, ?_⟩
      have leaves : Leaves nodes flags start.scopes.last v.scopes (.addName decl ident potentially) := by
        intro homograph _ isReplace
        rw [action] at isReplace
        exact notReplace homograph (Except.ok.inj isReplace)
      exact ⟨fun unchanged => ⟨unchanged, leaves⟩, fun both => both.1⟩
    cases a with
    | replace homograph =>
      obtain ⟨overloadable, first, -, place⟩ := supposes
      have replaced := drift.replace nest inside first overloadable place
      have after : outersAfter decl (inner ++ w :: rest) (.replace homograph) =
          inner.map (fun u => u.replace homograph decl) ++ w.replace homograph decl ::
            rest.map fun u => u.replace homograph decl := by
        simp only [outersAfter, List.map_append, List.map_cons]
      rw [after] at nested
      refine ⟨depth, w.replace homograph decl, balanced,
        ⟨_, _, _, rfl, nested, (List.length_map _).trans length, kinds, replaced⟩, ?_⟩
      by_cases bound : homograph ≤ start.scopes.last
      · have changed := drift.changed nest inside first overloadable place (drift.size.symm ▸ bound)
        refine iff_of_false (fun unchanged => changed (unchanged ident)) fun both => ?_
        exact both.2 homograph bound action
      rw [View.replace_beyond (by rw [drift.size]; omega)]
      refine ⟨fun unchanged => ⟨unchanged, fun h le isReplace => ?_⟩, fun both => both.1⟩
      rw [action] at isReplace
      obtain rfl : homograph = h := by simpa using isReplace
      exact bound le
    | discard | report message | add hidPrev d | addAndHide homograph prev => exact others (by simp) rfl
  | openRegion =>
    refine ⟨depth + 1, w, balanced, ⟨⟨openDeclarativeRegion v.scopes, v.chain⟩, v :: inner, rest, Except.ok.inj run,
      nest.openRegion, congrArg Nat.succ length, ?_, drift⟩, ⟨fun unchanged => ⟨unchanged, trivial⟩, fun both => both.1⟩⟩
    rw [← Except.ok.inj run]
    exact kind
  | push =>
    refine ⟨depth + 1, w, balanced, ⟨⟨pushInterpretations v.scopes, v.chain⟩, v :: inner, rest, Except.ok.inj run,
      nest.push, congrArg Nat.succ length, ?_, drift⟩, ⟨fun unchanged => ⟨unchanged, trivial⟩, fun both => both.1⟩⟩
    rw [← Except.ok.inj run]
    exact kind
  | closeRegion =>
    cases depth with
    | zero => exact balanced.elim
    | succ depth =>
      obtain ⟨outer, outers, isOuters, scope, rfl, nested⟩ := nest.closeRegion run
      exact ⟨depth, w, balanced, InRegion.leave isOuters length kind scope nested drift,
        fun unchanged => ⟨unchanged, trivial⟩, fun both => both.1⟩
  | pop =>
    cases depth with
    | zero => exact balanced.elim
    | succ depth =>
      obtain ⟨outer, outers, isOuters, scope, rfl, nested⟩ := nest.pop run
      exact ⟨depth, w, balanced, InRegion.leave isOuters length kind scope nested drift,
        fun unchanged => ⟨unchanged, trivial⟩, fun both => both.1⟩

theorem InRegion.run (region : InRegion nodes start depth s w) (balanced : Balanced depth operations)
    (run : operations.foldlM (execute nodes flags) s = .ok s') : ∃ w', InRegion nodes start 0 s' w' ∧
      (Unchanged start w' ↔
        Unchanged start w ∧ EveryStep (execute nodes flags) (Leaves nodes flags start.scopes.last) s operations) := by
  induction operations generalizing depth s w with
  | nil =>
    have atEnd : depth = 0 := balanced
    rw [atEnd] at region
    rw [← Except.ok.inj run]
    exact ⟨w, region, ⟨fun unchanged => ⟨unchanged, trivial⟩, fun both => both.1⟩⟩
  | cons op operations ih =>
    rw [List.foldlM_cons] at run
    obtain ⟨s1, step, rest⟩ := bind_ok.mp run
    obtain ⟨depth1, w1, balanced1, region1, first⟩ := region.step balanced step
    obtain ⟨w', region', others⟩ := ih region1 balanced1 rest
    refine ⟨w', region', others.trans ⟨fun both => ?_, fun both => ?_⟩⟩
    · obtain ⟨unchanged, leaves⟩ := first.mp both.1
      refine ⟨unchanged, leaves, fun after isStep => ?_⟩
      obtain rfl := Except.ok.inj (step.symm.trans isStep)
      exact both.2
    · exact ⟨first.mpr ⟨both.1, both.2.1⟩, both.2.2 s1 step⟩

theorem InRegion.close (region : InRegion nodes start 0 s w) : closeDeclarativeRegion s = .ok w.scopes := by
  obtain ⟨v, inner, rest, rfl, nest, length, kind, -⟩ := region
  obtain rfl := List.eq_nil_of_length_eq_zero length
  cases nest with
  | @inner scopeKind _ _ _ scope holds nest =>
    cases scopeKind with
    | region => exact scope.close
    | start =>
      rw [scope.scopes, List.map_cons, List.getElem?_cons_zero] at kind
      exact absurd (Option.some.inj kind) (by simp [ScopeKind.saved])

theorem Nest.step (nest : Nest nodes v outers) (run : execute nodes flags v.scopes op = .ok s) :
    ∃ v' outers', v'.scopes = s ∧ Nest nodes v' outers' := by
  cases op with
  | addName decl ident potentially =>
    obtain ⟨a, action, performed⟩ := bind_ok.mp run
    have supposes := addNameAction_supposes nest.holds action
    rw [perform_eq nest.holds supposes] at performed
    exact ⟨_, _, Except.ok.inj performed, nest.perform supposes⟩
  | openRegion => exact ⟨⟨openDeclarativeRegion v.scopes, v.chain⟩, v :: outers, Except.ok.inj run, nest.openRegion⟩
  | push => exact ⟨⟨pushInterpretations v.scopes, v.chain⟩, v :: outers, Except.ok.inj run, nest.push⟩
  | closeRegion =>
    obtain ⟨outer, rest, -, -, rfl, nested⟩ := nest.closeRegion run
    exact ⟨outer, rest, rfl, nested⟩
  | pop =>
    obtain ⟨outer, rest, -, -, rfl, nested⟩ := nest.pop run
    exact ⟨outer, rest, rfl, nested⟩

/-- The state is the innermost one of nested scopes. -/
def Nested (nodes : Nodes Iir) (s : Scopes Iir Id) : Prop := ∃ v outers, v.scopes = s ∧ Nest nodes v outers

theorem nested_of_run (nodes : Nodes Iir) (run : operations.foldlM (execute nodes flags) Scopes.empty = .ok s) :
    Nested nodes s := by
  have base : Nested nodes (Scopes.empty : Scopes Iir Id) := ⟨_, _, rfl, nest_empty⟩
  refine foldlM_invariant run base ?_
  intro s1 op s2 _ reached step
  obtain ⟨v, outers, rfl, nest⟩ := reached
  exact nest.step step

/-- A region that was opened in any state that is reached can be closed after operations that close what they open, and
then the visible declarations are those from before exactly where no declaration from before was replaced. -/
theorem closeRegion_restores_iff {history body : List (Operation Iir Id)} {before inside : Scopes Iir Id}
    (reached : history.foldlM (execute nodes flags) Scopes.empty = .ok before) (balanced : Balanced 0 body)
    (run : body.foldlM (execute nodes flags) (openDeclarativeRegion before) = .ok inside) :
    ∃ after, closeDeclarativeRegion inside = .ok after ∧ ((∀ id, after.declarations id = before.declarations id) ↔
        EveryStep (execute nodes flags) (Leaves nodes flags before.last) (openDeclarativeRegion before) body) := by
  obtain ⟨v, outers, rfl, nest⟩ := nested_of_run nodes reached
  have entered : InRegion nodes v 0 (openDeclarativeRegion v.scopes) v :=
    ⟨⟨openDeclarativeRegion v.scopes, v.chain⟩, [], outers, rfl, nest.openRegion, rfl, rfl, Drift.refl nodes v⟩
  obtain ⟨w, region, same⟩ := entered.run balanced run
  refine ⟨w.scopes, region.close, same.trans ⟨fun both => both.2, fun leaves => ⟨fun _ => rfl, leaves⟩⟩⟩

/-- An implicit function and an explicit one with the same profile, and the package in which they are both declared. -/
def implicitAndExplicit : Nodes (Fin 3) where
  kind d := if d = 2 then .other else .functionDeclaration
  namedEntity := fun _ => 2
  implicitAliasFlag := fun _ => false
  implicitDefinition d := d = 0
  subprogramHash := fun _ => 0
  returnType := fun _ => 2
  type := fun _ => 2
  interfaceTypes := fun _ => []
  parent := fun _ => 2
  named := by decide

/-- Before VHDL 2008, the explicit function is made visible in a region around which the implicit one is. -/
theorem implicit_not_restored : ¬ ∀ before inside after : Scopes (Fin 3) Unit,
    [.openRegion, .addName 0 () true].foldlM (execute implicitAndExplicit ⟨false, false⟩) Scopes.empty = .ok before →
    [.addName 1 () true].foldlM (execute implicitAndExplicit ⟨false, false⟩) (openDeclarativeRegion before) = .ok inside →
    closeDeclarativeRegion inside = .ok after → ∀ id, after.declarations id = before.declarations id := by
  intro restores
  let whole : Except Failure (List (Option (Fin 3)) × List (Option (Fin 3))) := do
    let before ← [.openRegion, .addName 0 () true].foldlM (execute implicitAndExplicit ⟨false, false⟩) Scopes.empty
    let inside ←
      [.addName 1 () true].foldlM (execute implicitAndExplicit ⟨false, false⟩) (openDeclarativeRegion before)
    let after ← closeDeclarativeRegion inside
    return (before.declarations (), after.declarations ())
  have result : whole = .ok ([some 0], [some 1]) := by decide +kernel
  obtain ⟨before, reached, result⟩ := bind_ok.mp result
  obtain ⟨inside, run, result⟩ := bind_ok.mp result
  obtain ⟨after, close, result⟩ := bind_ok.mp result
  obtain ⟨isBefore, isAfter⟩ := Prod.mk.inj (Except.ok.inj result)
  have same := restores before inside after reached run close ()
  rw [isBefore, isAfter] at same
  exact absurd same (by decide)

/-- With VHDL 2008 it is restored. -/
theorem closeRegion_restores_implicit : ∃ before inside after : Scopes (Fin 3) Unit,
    [.openRegion, .addName 0 () true].foldlM (execute implicitAndExplicit ⟨true, false⟩) Scopes.empty = .ok before ∧
    [.addName 1 () true].foldlM (execute implicitAndExplicit ⟨true, false⟩) (openDeclarativeRegion before) = .ok inside ∧
    closeDeclarativeRegion inside = .ok after ∧ ((∀ id, after.declarations id = before.declarations id) ↔
      EveryStep (execute implicitAndExplicit ⟨true, false⟩) (Leaves implicitAndExplicit ⟨true, false⟩ before.last)
        (openDeclarativeRegion before) [.addName 1 () true]) := by
  let whole : Except Failure (Scopes (Fin 3) Unit) := do
    let before ← [.openRegion, .addName 0 () true].foldlM (execute implicitAndExplicit ⟨true, false⟩) Scopes.empty
    [.addName 1 () true].foldlM (execute implicitAndExplicit ⟨true, false⟩) (openDeclarativeRegion before)
  have result : ∃ inside, whole = .ok inside ∧ inside.declarations () = [some 1] := by
    apply exists_ok
    decide +kernel
  obtain ⟨inside, result, -⟩ := result
  obtain ⟨before, reached, run⟩ := bind_ok.mp result
  have balanced : Balanced 0 [Operation.addName (1 : Fin 3) () true] := rfl
  obtain ⟨after, close, same⟩ := closeRegion_restores_iff reached balanced run
  exact ⟨before, inside, after, reached, run, close, same⟩

end Ghdl.SemScopes
