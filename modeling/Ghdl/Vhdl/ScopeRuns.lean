import Ghdl.Vhdl.ScopeVisibility

/-!
# Runs of scopes

In every state of a run the scopes are nested. As long as no step loses it, what is visible is sound in the innermost
scope and in every scope around it, where it is still to be visible again.
-/

namespace Ghdl.SemScopes

open Linked Fallible Transition

variable {Iir Id : Type} [DecidableEq Iir] [DecidableEq Id] {nodes : Nodes Iir} {flags : Flags} {v u outer : View Iir Id}
  {outers : List (View Iir Id)} {decl : Iir} {ident : Id} {potentially : Bool} {homograph : Nat}

theorem Nest.holds_of_mem (nest : Nest nodes v outers) (inside : u ∈ outers) : u.Holds nodes := by
  induction nest with
  | outermost _ _ _ => exact absurd inside List.not_mem_nil
  | inner _ _ nest ih =>
    rcases List.mem_cons.mp inside with rfl | inside
    · exact nest.holds
    · exact ih inside

theorem Nest.last_le (nest : Nest nodes v outers) (inside : u ∈ outers) : u.scopes.last ≤ v.scopes.last := by
  induction nest with
  | outermost _ _ _ => exact absurd inside List.not_mem_nil
  | inner scope _ _ ih =>
    rcases List.mem_cons.mp inside with rfl | inside
    · exact scope.size
    · exact Nat.le_trans (ih inside) scope.size

/-- A first homograph is the first one of every scope that it belongs to, and no other declaration is visible there that
is not visible from the innermost scope. -/
theorem Nest.firstInOuters (nest : Nest nodes v outers)
    (first : ∃ before after, FirstHomograph nodes v.scopes decl (v.chain ident) before homograph after)
    (inside : u ∈ outers) (bound : homograph ≤ u.scopes.last) :
    (∃ before after, FirstHomograph nodes u.scopes decl (u.chain ident) before homograph after) ∧
      (Fresh v.scopes ident decl homograph → Fresh u.scopes ident decl homograph) := by
  induction nest with
  | outermost _ _ _ => exact absurd inside List.not_mem_nil
  | inner scope holds nest ih =>
    obtain ⟨before, after, isFirst⟩ := first
    have toScope : homograph ≤ _ → _ := fun bound => isFirst.inOuter scope holds nest.holds bound
    have freshInScope : homograph ≤ _ → _ → _ := fun bound fresh =>
      Fresh.inOuter scope holds nest.holds isFirst bound fresh
    rcases List.mem_cons.mp inside with rfl | deeper
    · exact ⟨toScope bound, freshInScope bound⟩
    · have inScope := Nat.le_trans bound (nest.last_le deeper)
      obtain ⟨found, fresh⟩ := ih (toScope inScope) deeper
      exact ⟨found, fun isFresh => fresh (freshInScope inScope isFresh)⟩

/-- The scopes are nested, and what is visible is sound in each. -/
def Invariant (nodes : Nodes Iir) (s : Scopes Iir Id) : Prop :=
  ∃ v outers, v.scopes = s ∧ Nest nodes v outers ∧ ∀ u ∈ v :: outers, ChainsSound nodes u.scopes

theorem invariant_empty : Invariant nodes (Scopes.empty : Scopes Iir Id) := by
  refine ⟨⟨Scopes.empty, fun _ => []⟩, [], rfl, nest_empty, fun u inside id => ?_⟩
  rw [List.mem_singleton.mp inside]
  exact Sound.nil

theorem sound_perform_iff (nest : Nest nodes v outers) {a : Action Iir}
    (run : addNameAction nodes flags v.scopes decl ident potentially = .ok a) (sound : ChainsSound nodes v.scopes) :
    ChainsSound nodes (v.perform decl ident potentially a).scopes ↔
      Keeps nodes flags v.scopes (.addName decl ident potentially) := by
  have holds := nest.holds
  have supposes := addNameAction_supposes holds run
  have after := (nest.perform supposes).holds
  unfold Keeps
  dsimp only
  rw [run]
  cases a with
  | discard | report message => exact iff_of_true sound trivial
  | add hidPrev d =>
    cases hidPrev with
    | true => exact iff_of_true (sound_add_true holds after sound) trivial
    | false =>
      obtain ⟨rfl, overloadable, plain, -⟩ := supposes
      exact sound_add_false holds after overloadable plain sound
  | replace homograph =>
    obtain ⟨overloadable, ⟨before, rest, first⟩, -⟩ := supposes
    have bound := holds.inside ident homograph (holds.visible_subset (first.mem_visible holds))
    have exactly := sound_replace holds (fun _ => ⟨before, rest, first⟩) overloadable sound
    exact exactly.trans ⟨fun fresh => fresh bound, fun fresh _ => fresh⟩
  | addAndHide homograph prev =>
    obtain ⟨overloadable, ⟨before, rest, first, -⟩, -⟩ := supposes
    have added : (v.add ident potentially false (some decl)).Holds nodes :=
      holds.add fun hidden => absurd hidden Bool.false_ne_true
    exact sound_hide holds added after first overloadable sound

theorem sound_outersAfter (nest : Nest nodes v outers) {a : Action Iir}
    (run : addNameAction nodes flags v.scopes decl ident potentially = .ok a)
    (keeps : Keeps nodes flags v.scopes (.addName decl ident potentially))
    (sound : ∀ u ∈ outers, ChainsSound nodes u.scopes) : ∀ u ∈ outersAfter decl outers a, ChainsSound nodes u.scopes := by
  unfold Keeps at keeps
  dsimp only at keeps
  rw [run] at keeps
  have supposes := addNameAction_supposes nest.holds run
  cases a with
  | replace homograph =>
    obtain ⟨overloadable, first, -⟩ := supposes
    intro u' inside
    obtain ⟨u, inOuters, rfl⟩ := List.mem_map.mp inside
    have replaced := sound_replace (nest.holds_of_mem inOuters) (fun bound => (nest.firstInOuters first inOuters bound).1)
      overloadable (sound u inOuters)
    exact replaced.mpr fun bound => (nest.firstInOuters first inOuters bound).2 keeps
  | _ => exact sound

omit [DecidableEq Iir] [DecidableEq Id] in
theorem declarations_openRegion (holds : v.Holds nodes) (id : Id) :
    (openDeclarativeRegion v.scopes).declarations id = v.scopes.declarations id := by
  have opened : (⟨openDeclarativeRegion v.scopes, v.chain⟩ : View Iir Id).Holds nodes :=
    ⟨holds.visits, holds.decreasing, holds.inside, holds.disjoint, holds.bounded, holds.first, holds.reach, holds.cut⟩
  exact declarations_congr (holds.visible_congr opened rfl rfl (fun _ _ => rfl) fun _ _ => rfl) fun _ _ => rfl

omit [DecidableEq Iir] [DecidableEq Id] in
theorem declarations_push (holds : v.Holds nodes) (id : Id) : (pushInterpretations v.scopes).declarations id = [] := by
  have invalid : ¬ (pushInterpretations v.scopes).Valid (v.scopes.nameInfo id) := by
    intro valid
    have above : v.scopes.last + 1 ≤ v.scopes.nameInfo id := valid
    have bound := holds.nameInfo_le id
    omega
  have nothing : (pushInterpretations v.scopes).getInterpretation id = noInterpretation := by
    unfold Scopes.getInterpretation Scopes.getInterpretationFromRaw
    exact if_neg fun both => invalid both.1
  unfold Scopes.declarations Scopes.visible
  rw [nothing, View.interpretationsFrom_none]
  rfl

/-- An operation that keeps the visible interpretations sound keeps the invariant. -/
theorem Invariant.step {s s' : Scopes Iir Id} {op : Operation Iir Id} (invariant : Invariant nodes s)
    (keeps : Keeps nodes flags s op) (run : execute nodes flags s op = .ok s') : Invariant nodes s' := by
  obtain ⟨v, outers, rfl, nest, sound⟩ := invariant
  have here := sound v List.mem_cons_self
  have around : ∀ u ∈ outers, ChainsSound nodes u.scopes := fun u inside => sound u (List.mem_cons_of_mem v inside)
  cases op with
  | addName decl ident potentially =>
    obtain ⟨a, action, performed⟩ := bind_ok.mp run
    have supposes := addNameAction_supposes nest.holds action
    rw [perform_eq nest.holds supposes] at performed
    refine ⟨v.perform decl ident potentially a, outersAfter decl outers a, Except.ok.inj performed, nest.perform supposes, ?_⟩
    intro u inside
    rcases List.mem_cons.mp inside with rfl | inside
    · exact (sound_perform_iff nest action here).mpr keeps
    · exact sound_outersAfter nest action keeps around u inside
  | openRegion =>
    refine ⟨⟨openDeclarativeRegion v.scopes, v.chain⟩, v :: outers, Except.ok.inj run, nest.openRegion, fun u inside => ?_⟩
    rcases List.mem_cons.mp inside with rfl | inside
    · intro id
      rw [declarations_openRegion nest.holds]
      exact here id
    · exact sound u inside
  | closeRegion =>
    obtain ⟨outer, rest, rfl, -, rfl, nest'⟩ := nest.closeRegion run
    exact ⟨outer, rest, rfl, nest', around⟩
  | push =>
    refine ⟨⟨pushInterpretations v.scopes, v.chain⟩, v :: outers, Except.ok.inj run, nest.push, fun u inside => ?_⟩
    rcases List.mem_cons.mp inside with rfl | inside
    · intro id
      rw [declarations_push nest.holds]
      exact Sound.nil
    · exact sound u inside
  | pop =>
    obtain ⟨outer, rest, rfl, -, rfl, nest'⟩ := nest.pop run
    exact ⟨outer, rest, rfl, nest', around⟩

theorem Invariant.lost {s : Scopes Iir Id} {op : Operation Iir Id} (invariant : Invariant nodes s)
    (loses : ¬ Keeps nodes flags s op) : ∃ s', execute nodes flags s op = .ok s' ∧ ¬ ChainsSound nodes s' := by
  obtain ⟨v, outers, rfl, nest, sound⟩ := invariant
  cases op with
  | addName decl ident potentially =>
    cases action : addNameAction nodes flags v.scopes decl ident potentially with
    | error e =>
      apply (loses _).elim
      unfold Keeps
      dsimp only
      rw [action]
      trivial
    | ok a =>
      have supposes := addNameAction_supposes nest.holds action
      refine ⟨(v.perform decl ident potentially a).scopes, ?_, fun kept => loses ?_⟩
      · exact bind_ok.mpr ⟨a, action, perform_eq nest.holds supposes⟩
      · exact (sound_perform_iff nest action (sound v List.mem_cons_self)).mp kept
  | _ => exact (loses trivial).elim

/-- In a run from the empty tables what is visible is always sound exactly where every step keeps it so. -/
theorem chainsSound_iff (nodes : Nodes Iir) (flags : Flags) (operations : List (Operation Iir Id)) :
    Always (execute nodes flags) (ChainsSound nodes) Scopes.empty operations ↔
      EveryStep (execute nodes flags) (Keeps nodes flags) Scopes.empty operations := by
  have base : Invariant nodes (Scopes.empty : Scopes Iir Id) := invariant_empty
  refine always_iff_everyStep ?_ ?_ ?_ base
  · intro s invariant
    obtain ⟨v, outers, rfl, -, sound⟩ := invariant
    exact sound v List.mem_cons_self
  · exact fun s op s' invariant keeps run => invariant.step keeps run
  · exact fun s op invariant loses => invariant.lost loses

/-- A signal, two functions with the same profile, and the type that these return. -/
def signalAndFunctions : Nodes (Fin 4) where
  kind d := if d = 1 ∨ d = 2 then .functionDeclaration else .other
  namedEntity := fun _ => 3
  implicitAliasFlag := fun _ => false
  implicitDefinition := fun _ => false
  subprogramHash := fun _ => 0
  returnType := fun _ => 3
  type := fun _ => 3
  interfaceTypes := fun _ => []
  parent d := d
  named := by decide

/-- Each is declared directly under the same name in a region of its own, inside the one before. -/
def nestedRegions : List (Operation (Fin 4) Unit) :=
  [.openRegion, .addName 0 () false, .openRegion, .addName 1 () false, .openRegion, .addName 2 () false]

/-- The signal that the first function hides is visible behind the second one. -/
theorem signal_visible_again :
    ¬ Always (execute signalAndFunctions ⟨true, false⟩) (ChainsSound signalAndFunctions) Scopes.empty nestedRegions := by
  intro always
  have visible : ∃ s, nestedRegions.foldlM (execute signalAndFunctions ⟨true, false⟩) Scopes.empty = .ok s ∧
      s.declarations () = [some 2, some 0] := by
    apply exists_ok
    decide +kernel
  obtain ⟨s, run, declarations⟩ := visible
  obtain ⟨-, -, overloadable⟩ := always.last run ()
  rw [declarations] at overloadable
  have wrong := overloadable (by decide) 0 (by decide)
  exact absurd wrong (by decide)

end Ghdl.SemScopes
