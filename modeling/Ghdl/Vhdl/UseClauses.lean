import Mathlib
import Ghdl.Vhdl.ScopeRestoration

/-!
# Potentially visible homographs

Two different declarations that use clauses make potentially visible under one name hide each other: a conflict is
marked. But the mark is no interpretation for `Get_Interpretation`, so that the next declaration is added as the first
one was, and is visible. The visible one alternates with a conflict.
-/

namespace Ghdl.SemScopes

open Linked Fallible Transition

section Sequences

variable {Iir : Type} [DecidableEq Iir]

/-- What is visible after one more declaration: the only one, or nothing. -/
def denote : Option Iir → Iir → Option Iir
  | none, d => some d
  | some x, d => if d = x then some x else none

/-- The sequence is made of repetitions of one declaration that each end with a different one. -/
inductive Cancels : List Iir → Prop
  | last {x y : Iir} (different : y ≠ x) (n : Nat) : Cancels (List.replicate (n + 1) x ++ [y])
  | more {x y : Iir} (different : y ≠ x) (n : Nat) {l : List Iir} (rest : Cancels l) :
    Cancels (List.replicate (n + 1) x ++ y :: l)

theorem foldl_denote_replicate (x : Iir) (n : Nat) (l : List Iir) :
    (List.replicate n x ++ l).foldl denote (some x) = l.foldl denote (some x) := by
  induction n with
  | zero => rfl
  | succ n ih =>
    rw [List.replicate_succ, List.cons_append, List.foldl_cons, denote, if_pos rfl]
    exact ih

theorem foldl_denote_group {x y : Iir} (different : y ≠ x) (n : Nat) (l : List Iir) :
    (List.replicate (n + 1) x ++ y :: l).foldl denote none = l.foldl denote none := by
  rw [List.replicate_succ, List.cons_append, List.foldl_cons]
  show List.foldl denote (some x) _ = _
  rw [foldl_denote_replicate, List.foldl_cons, denote, if_neg different]

theorem exists_group {x : Iir} {l : List Iir} (cancelled : l.foldl denote (some x) = none) :
    ∃ n y rest, l = List.replicate n x ++ y :: rest ∧ y ≠ x ∧ rest.foldl denote none = none := by
  induction l with
  | nil => exact absurd cancelled (by simp)
  | cons d l ih =>
    rw [List.foldl_cons, denote] at cancelled
    split at cancelled
    · rename_i same
      obtain ⟨n, y, rest, rfl, different, ended⟩ := ih cancelled
      exact ⟨n + 1, y, rest, by rw [same, List.replicate_succ, List.cons_append], different, ended⟩
    · rename_i different
      exact ⟨0, d, l, rfl, different, cancelled⟩

theorem cancels_iff {l : List Iir} : Cancels l ↔ l ≠ [] ∧ l.foldl denote none = none := by
  constructor
  · intro cancels
    induction cancels with
    | last different n => exact ⟨by simp, foldl_denote_group different n []⟩
    | more different n rest ih => exact ⟨by simp, (foldl_denote_group different n _).trans ih.2⟩
  · rintro ⟨nonempty, cancelled⟩
    induction isLength : l.length using Nat.strongRecOn generalizing l with
    | ind length ih =>
      cases l with
      | nil => exact absurd rfl nonempty
      | cons x l =>
        have fromFirst : l.foldl denote (some x) = none := cancelled
        obtain ⟨n, y, rest, rfl, different, ended⟩ := exists_group fromFirst
        have shape : x :: (List.replicate n x ++ y :: rest) = List.replicate (n + 1) x ++ y :: rest := by
          rw [List.replicate_succ, List.cons_append]
        rw [shape]
        by_cases isLast : rest = []
        · rw [isLast]
          exact Cancels.last different n
        · refine Cancels.more different n (ih rest.length ?_ isLast ended rfl)
          rw [← isLength]
          simp only [List.length_cons, List.length_append, List.length_replicate]
          omega

/-- The declarations that the use clauses were to make visible: the only one that is added, or else none. -/
def expected (outer : List (Option Iir)) : List Iir → List (Option Iir)
  | [] => outer
  | d :: ds => if ∀ e ∈ ds, e = d then [some d] else []

/-- The same declaration is always added, and it is not visible behind others yet. -/
def Alone (outer : List (Option Iir)) (ds : List Iir) : Prop :=
  ∀ d ∈ ds, (∀ e ∈ ds, e = d) ∧ (some d ∈ outer → outer = [some d])

/-- The declarations after the additions, when these are visible before. -/
def outcome (outer : List (Option Iir)) (ds : List Iir) : List (Option Iir) :=
  match ds.dropWhile fun d => outer.contains (some d) with
  | [] => outer
  | rest => (rest.foldl denote none).toList.map some

theorem contains_some (outer : List (Option Iir)) :
    (fun d : Iir => outer.contains (some d)) = fun d => decide (some d ∈ outer) := by
  funext d
  exact List.contains_eq_mem (some d) outer

theorem foldl_denote_same {d : Iir} {ds : List Iir} (same : ∀ e ∈ ds, e = d) : ds.foldl denote (some d) = some d := by
  have repeats : ds = List.replicate ds.length d ++ [] := by
    rw [List.append_nil]
    exact List.eq_replicate_iff.mpr ⟨rfl, same⟩
  rw [repeats]
  exact foldl_denote_replicate d ds.length []

theorem outcome_eq_expected_iff {outer : List (Option Iir)} {ds : List Iir} :
    outcome outer ds = expected outer ds ↔ Alone outer ds ∨ Cancels (ds.dropWhile fun d => some d ∈ outer) := by
  cases ds with
  | nil => exact iff_of_true rfl (Or.inl fun d inside => absurd inside List.not_mem_nil)
  | cons d ds =>
    have notCancels : ¬ Cancels ([] : List Iir) := fun cancels => (cancels_iff.mp cancels).1 rfl
    by_cases uniform : ∀ e ∈ ds, e = d
    · have all : ∀ e ∈ d :: ds, e = d := fun e inside => (List.mem_cons.mp inside).elim id (uniform e)
      rw [expected, if_pos uniform]
      by_cases visible : some d ∈ outer
      · have dropped : (d :: ds).dropWhile (fun d => decide (some d ∈ outer)) = [] := by
          rw [List.dropWhile_eq_nil_iff]
          intro e inside
          rw [all e inside]
          exact decide_eq_true visible
        have whole : outcome outer (d :: ds) = outer := by
          unfold outcome
          rw [contains_some, dropped]
        rw [whole, dropped]
        constructor
        · intro single
          refine Or.inl fun e inside => ⟨?_, fun _ => ?_⟩
          · rw [all e inside]
            exact all
          · rw [all e inside]
            exact single
        · rintro (alone | cancels)
          · exact (alone d List.mem_cons_self).2 visible
          · exact absurd cancels notCancels
      · have kept : (d :: ds).dropWhile (fun d => decide (some d ∈ outer)) = d :: ds := by
          rw [List.dropWhile_cons, if_neg (by simpa using visible)]
        have single : outcome outer (d :: ds) = [some d] := by
          unfold outcome
          rw [contains_some, kept]
          show List.map some (List.foldl denote (some d) ds).toList = _
          rw [foldl_denote_same uniform]
          rfl
        refine iff_of_true single (Or.inl fun e inside => ?_)
        rw [all e inside]
        exact ⟨all, fun again => absurd again visible⟩
    · rw [expected, if_neg uniform]
      have notAlone : ¬ Alone outer (d :: ds) := fun alone =>
        uniform fun e inside => (alone d List.mem_cons_self).1 e (List.mem_cons_of_mem d inside)
      unfold outcome
      rw [contains_some]
      cases isRest : (d :: ds).dropWhile (fun d => decide (some d ∈ outer)) with
      | nil =>
        have visible : some d ∈ outer := of_decide_eq_true (List.dropWhile_eq_nil_iff.mp isRest d List.mem_cons_self)
        refine iff_of_false (fun nothing => ?_) fun either => either.elim notAlone notCancels
        have isNil : outer = [] := nothing
        rw [isNil] at visible
        exact List.not_mem_nil visible
      | cons e rest =>
        rw [cancels_iff]
        constructor
        · intro nothing
          refine Or.inr ⟨by simp, ?_⟩
          cases ended : (e :: rest).foldl denote none with
          | none => rfl
          | some x =>
            have shown : List.map some ((e :: rest).foldl denote none).toList = [] := nothing
            rw [ended] at shown
            exact absurd shown (by simp)
        · rintro (alone | ⟨-, ended⟩)
          · exact absurd alone notAlone
          · show List.map some ((e :: rest).foldl denote none).toList = []
            rw [ended]
            rfl

end Sequences

variable {Iir Id : Type} [DecidableEq Iir] [DecidableEq Id] {nodes : Nodes Iir} {flags : Flags} {v : View Iir Id}
  {outers : List (View Iir Id)} {decl : Iir} {ident : Id} {x : Option Iir} {ds : List Iir}

/-- The last interpretation of the identifier is potentially visible and of the current region: one that hides those
before it, or a conflict. -/
structure Shows (v : View Iir Id) (ident : Id) (x : Option Iir) : Prop where
  current : v.scopes.InCurrentRegion (v.scopes.nameInfo ident)
  decl : (v.scopes.cell (v.scopes.nameInfo ident)).decl = x
  potential : (v.scopes.cell (v.scopes.nameInfo ident)).isPotential = true
  valid : v.scopes.Valid (v.scopes.nameInfo ident)
  declarations : v.scopes.declarations ident = x.toList.map some

theorem Nest.shows_add (nest : Nest nodes v outers) (added : (v.add ident true true x).Holds nodes) :
    Shows (v.add ident true true x) ident x := by
  have name : (v.add ident true true x).scopes.nameInfo ident = v.scopes.last + 1 := Function.update_self _ _ _
  have start := nest.start_le
  have valid : v.scopes.firstInterpretation ≤ v.scopes.last + 1 := nest.holds.reach
  refine ⟨?_, ?_, ?_, ?_, ?_⟩
  · rw [name]
    exact start
  · rw [name, View.add_cell_last]
  · rw [name, View.add_cell_last]
  · rw [name]
    exact valid
  · rw [View.declarations_add_true nest.holds added]
    cases x <;> rfl

omit [DecidableEq Iir] [DecidableEq Id] in
theorem View.valid_of_mem {d : Option Iir} (visible : d ∈ v.scopes.declarations ident) :
    v.scopes.Valid (v.scopes.getInterpretation ident) := by
  apply Classical.byContradiction
  intro invalid
  have nothing : v.scopes.getInterpretation ident = noInterpretation := by
    unfold Scopes.getInterpretation Scopes.getInterpretationFromRaw at invalid ⊢
    split at invalid
    · rename_i both
      exact absurd both.1 invalid
    · rename_i neither
      exact if_neg neither
  obtain ⟨i, inside, -⟩ := mem_declarations.mp visible
  unfold Scopes.visible at inside
  rw [nothing, View.interpretationsFrom_none] at inside
  exact List.not_mem_nil inside

omit [DecidableEq Id] in
theorem addNameAction_first (invalid : ¬ v.scopes.Valid (v.scopes.getInterpretation ident)) :
    addNameAction nodes flags v.scopes decl ident true = .ok (.add true (some decl)) := if_pos invalid

omit [DecidableEq Id] in
theorem addNameAction_again (holds : v.Holds nodes) (visible : some decl ∈ v.scopes.declarations ident) :
    addNameAction nodes flags v.scopes decl ident true = .ok .discard := by
  have valid := View.valid_of_mem visible
  obtain ⟨i, -, -, isInter, -, notConflict, -⟩ := holds.getInterpretation_valid valid
  unfold addNameAction
  dsimp only
  rw [if_neg (not_not.mpr valid), isInter]
  cases isDecl : (v.scopes.cell i).decl with
  | none => exact absurd notConflict (by simp [Scopes.isConflict, isDecl])
  | some current => exact if_pos ⟨rfl, visible⟩

omit [DecidableEq Id] in
variable (flags) in
theorem addNameAction_other (holds : v.Holds nodes) (valid : v.scopes.Valid (v.scopes.getInterpretation ident))
    (fresh : some decl ∉ v.scopes.declarations ident) (notOverloadable : nodes.isOverloadable decl = false) :
    ∃ current, (v.scopes.cell (v.scopes.nameInfo ident)).decl = some current ∧
      addNameAction nodes flags v.scopes decl ident true =
        homographAction nodes flags v.scopes decl current (v.scopes.nameInfo ident) true := by
  obtain ⟨i, -, -, isInter, -, notConflict, isHead⟩ := holds.getInterpretation_valid valid
  rw [isHead]
  cases isDecl : (v.scopes.cell i).decl with
  | none => exact absurd notConflict (by simp [Scopes.isConflict, isDecl])
  | some current =>
    refine ⟨current, rfl, ?_⟩
    unfold addNameAction
    dsimp only
    rw [if_neg (not_not.mpr valid), isInter, isDecl]
    dsimp only
    rw [if_neg fun both => fresh both.2, if_neg fun both => by simp [notOverloadable] at both]

/-- The use clauses add the declarations one after the other. -/
def useClauses (nodes : Nodes Iir) (flags : Flags) (ident : Id) (s : Scopes Iir Id) (ds : List Iir) :
    Except Failure (Scopes Iir Id) :=
  ds.foldlM (fun s d => execute nodes flags s (.addName d ident true)) s

theorem execute_add (nest : Nest nodes v outers)
    (action : addNameAction nodes flags v.scopes decl ident true = .ok (.add true x)) :
    execute nodes flags v.scopes (.addName decl ident true) = .ok (v.add ident true true x).scopes ∧
      Nest nodes (v.add ident true true x) outers ∧ Shows (v.add ident true true x) ident x := by
  have supposes := addNameAction_supposes nest.holds action
  have nested := nest.perform supposes
  exact ⟨bind_ok.mpr ⟨_, action, rfl⟩, nested, nest.shows_add nested.holds⟩

variable (flags) in
theorem Shows.step (shows : Shows v ident x) (nest : Nest nodes v outers) (notOverloadable : nodes.isOverloadable decl = false)
    (distinct : ∀ d, x = some d → nodes.strip decl = nodes.strip d → decl = d) :
    ∃ v', execute nodes flags v.scopes (.addName decl ident true) = .ok v'.scopes ∧ Nest nodes v' outers ∧
      Shows v' ident (denote x decl) := by
  have holds := nest.holds
  cases x with
  | none =>
    have conflict : v.scopes.isConflict (v.scopes.nameInfo ident) = true := by
      unfold Scopes.isConflict
      rw [shows.decl]
      rfl
    have nothing : v.scopes.getInterpretation ident = noInterpretation := by
      unfold Scopes.getInterpretation Scopes.getInterpretationFromRaw
      exact if_neg fun both => both.2 conflict
    have invalid : ¬ v.scopes.Valid (v.scopes.getInterpretation ident) := by
      rw [nothing]
      exact Nat.not_le_of_lt holds.first
    exact ⟨_, execute_add nest (addNameAction_first invalid)⟩
  | some d =>
    by_cases same : decl = d
    · have visible : some decl ∈ v.scopes.declarations ident := by
        rw [shows.declarations, same]
        exact List.mem_cons_self
      have shown : denote (some d) decl = some d := if_pos same
      rw [shown]
      exact ⟨v, bind_ok.mpr ⟨_, addNameAction_again holds visible, rfl⟩, nest, shows⟩
    have visible : some d ∈ v.scopes.declarations ident := by
      rw [shows.declarations]
      exact List.mem_cons_self
    have fresh : some decl ∉ v.scopes.declarations ident := by
      rw [shows.declarations]
      intro inside
      exact same (Option.some.inj (List.mem_singleton.mp inside))
    obtain ⟨current, isCurrent, action⟩ :=
      addNameAction_other flags holds (View.valid_of_mem visible) fresh notOverloadable
    obtain rfl := Option.some.inj (isCurrent.symm.trans shows.decl)
    have conflict : homographAction nodes flags v.scopes decl current (v.scopes.nameInfo ident) true = .ok (.add true none) := by
      unfold homographAction
      rw [if_pos shows.current, if_pos shows.potential, if_pos rfl, if_neg same,
        if_neg fun both => same (distinct current rfl both.2)]
      rfl
    have hidden : denote (some current) decl = none := if_neg same
    rw [hidden]
    exact ⟨_, execute_add nest (action.trans conflict)⟩

variable (flags) in
theorem Shows.run {all : List Iir} (shows : Shows v ident x) (nest : Nest nodes v outers) (known : ∀ d, x = some d → d ∈ all)
    (notOverloadable : ∀ d ∈ all, nodes.isOverloadable d = false)
    (distinct : ∀ d ∈ all, ∀ e ∈ all, nodes.strip d = nodes.strip e → d = e) (inAll : ∀ d ∈ ds, d ∈ all) :
    ∃ s, useClauses nodes flags ident v.scopes ds = .ok s ∧
      s.declarations ident = (ds.foldl denote x).toList.map some := by
  induction ds generalizing v x with
  | nil => exact ⟨v.scopes, rfl, shows.declarations⟩
  | cons d ds ih =>
    have inside := inAll d List.mem_cons_self
    obtain ⟨v', step, nest', shows'⟩ := shows.step flags nest (notOverloadable d inside)
      fun e isE same => distinct d inside e (known e isE) same
    have known' : ∀ e, denote x d = some e → e ∈ all := by
      intro e isE
      cases x with
      | none => exact Option.some.inj isE ▸ inside
      | some y =>
        rw [denote] at isE
        split at isE
        · exact known e isE
        · exact absurd isE (by simp)
    obtain ⟨s, run, declarations⟩ := ih shows' nest' known' fun e inE => inAll e (List.mem_cons_of_mem d inE)
    exact ⟨s, bind_ok.mpr ⟨_, step, run⟩, declarations⟩

variable (flags) in
theorem step_outside (nest : Nest nodes v outers) (outside : ¬ v.scopes.InCurrentRegion (v.scopes.nameInfo ident))
    (notOverloadable : nodes.isOverloadable decl = false) (fresh : some decl ∉ v.scopes.declarations ident) :
    addNameAction nodes flags v.scopes decl ident true = .ok (.add true (some decl)) := by
  by_cases valid : v.scopes.Valid (v.scopes.getInterpretation ident)
  · obtain ⟨current, -, action⟩ := addNameAction_other flags nest.holds valid fresh notOverloadable
    rw [action]
    exact if_neg outside
  · exact addNameAction_first valid

variable (flags) in
theorem outcome_of_outside {all : List Iir} (nest : Nest nodes v outers)
    (outside : ¬ v.scopes.InCurrentRegion (v.scopes.nameInfo ident)) (notOverloadable : ∀ d ∈ all, nodes.isOverloadable d = false)
    (distinct : ∀ d ∈ all, ∀ e ∈ all, nodes.strip d = nodes.strip e → d = e) (inAll : ∀ d ∈ ds, d ∈ all) :
    ∃ s, useClauses nodes flags ident v.scopes ds = .ok s ∧
      s.declarations ident = outcome (v.scopes.declarations ident) ds := by
  induction ds with
  | nil => exact ⟨v.scopes, rfl, rfl⟩
  | cons d ds ih =>
    have inside := inAll d List.mem_cons_self
    have rest : ∀ e ∈ ds, e ∈ all := fun e inE => inAll e (List.mem_cons_of_mem d inE)
    by_cases visible : some d ∈ v.scopes.declarations ident
    · obtain ⟨s, run, declarations⟩ := ih rest
      have step : execute nodes flags v.scopes (.addName d ident true) = .ok v.scopes :=
        bind_ok.mpr ⟨_, addNameAction_again nest.holds visible, rfl⟩
      refine ⟨s, bind_ok.mpr ⟨_, step, run⟩, ?_⟩
      rw [declarations]
      unfold outcome
      rw [contains_some, List.dropWhile_cons, if_pos (decide_eq_true visible)]
    obtain ⟨step, nest', shows⟩ := execute_add nest (step_outside flags nest outside (notOverloadable d inside) visible)
    have known : ∀ e, some d = some e → e ∈ all := fun e same => Option.some.inj same ▸ inside
    obtain ⟨s, run, declarations⟩ := shows.run flags nest' known notOverloadable distinct rest
    refine ⟨s, bind_ok.mpr ⟨_, step, run⟩, ?_⟩
    rw [declarations]
    unfold outcome
    rw [contains_some, List.dropWhile_cons, if_neg (by simpa using visible)]
    rfl

/-- In a region in which the identifier was not declared, declarations of different entities that cannot be overloaded
are made potentially visible: what is visible then is the only one of them, or else nothing, exactly when they are all
the same one or they cancel. -/
theorem useClauses_iff {history : List (Operation Iir Id)} {s : Scopes Iir Id}
    (reached : history.foldlM (execute nodes flags) Scopes.empty = .ok s)
    (outside : ¬ s.InCurrentRegion (s.nameInfo ident)) (notOverloadable : ∀ d ∈ ds, nodes.isOverloadable d = false)
    (distinct : ∀ d ∈ ds, ∀ e ∈ ds, nodes.strip d = nodes.strip e → d = e) :
    ∃ s', useClauses nodes flags ident s ds = .ok s' ∧ (s'.declarations ident = expected (s.declarations ident) ds ↔
        Alone (s.declarations ident) ds ∨ Cancels (ds.dropWhile fun d => some d ∈ s.declarations ident)) := by
  obtain ⟨v, outers, rfl, nest⟩ := nested_of_run nodes reached
  obtain ⟨s', run, declarations⟩ :=
    outcome_of_outside flags nest outside notOverloadable distinct fun d inside => inside
  refine ⟨s', run, ?_⟩
  rw [declarations]
  exact outcome_eq_expected_iff

/-- Constants of different packages. -/
def constants : Nodes (Fin 3) where
  kind := fun _ => .other
  namedEntity d := d
  implicitAliasFlag := fun _ => false
  implicitDefinition := fun _ => false
  subprogramHash := fun _ => 0
  returnType d := d
  type d := d
  interfaceTypes := fun _ => []
  parent d := d
  named := by decide

/-- The third constant is visible, although two others are. -/
theorem third_constant_visible : ¬ ∀ s : Scopes (Fin 3) Unit,
    useClauses constants ⟨true, false⟩ () (openDeclarativeRegion Scopes.empty) [0, 1, 2] = .ok s →
      s.declarations () = expected [] [0, 1, 2] := by
  intro asExpected
  have visible : ∃ s, useClauses constants ⟨true, false⟩ () (openDeclarativeRegion Scopes.empty) [0, 1, 2] = .ok s ∧
      s.declarations () = [some 2] := by
    apply exists_ok
    decide +kernel
  obtain ⟨s, run, declarations⟩ := visible
  rw [asExpected s run] at declarations
  exact absurd declarations (by decide)

/-- Two of the constants, the first one twice, are not visible. -/
theorem two_constants_hidden : let s₀ : Scopes (Fin 3) Unit := openDeclarativeRegion Scopes.empty
    ∃ s, useClauses constants ⟨true, false⟩ () s₀ [0, 0, 1] = .ok s ∧
      (s.declarations () = expected (s₀.declarations ()) [0, 0, 1] ↔
        Alone (s₀.declarations ()) [0, 0, 1] ∨ Cancels ([0, 0, 1].dropWhile fun d => some d ∈ s₀.declarations ())) := by
  intro s₀
  have reached : [Operation.openRegion].foldlM (execute constants ⟨true, false⟩) Scopes.empty = .ok s₀ := rfl
  have outside : ¬ s₀.InCurrentRegion (s₀.nameInfo ()) := by decide
  have notOverloadable : ∀ d ∈ ([0, 0, 1] : List (Fin 3)), constants.isOverloadable d = false := by decide
  have distinct : ∀ d ∈ ([0, 0, 1] : List (Fin 3)), ∀ e ∈ ([0, 0, 1] : List (Fin 3)),
    constants.strip d = constants.strip e → d = e := by decide
  exact useClauses_iff reached outside notOverloadable distinct

end Ghdl.SemScopes
