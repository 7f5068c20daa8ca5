import Ghdl.System.Fallible
import Ghdl.Vhdl.ScopeChains

/-!
# What Add_Name does

Every branch of `Add_Name` leaves the tables, adds an interpretation, replaces the declaration of a homograph, or adds
an interpretation and takes a homograph out of the chain. What each of these actions supposes is stated once here.
-/

namespace Ghdl.SemScopes

open Linked Fallible

variable {Iir Id : Type} [DecidableEq Iir] {nodes : Nodes Iir} {flags : Flags} {v : View Iir Id}
  {decl : Iir} {ident : Id} {potentially : Bool}

namespace Nodes

variable {a b : Iir}

theorem isSameProfile_symm (same : nodes.isSameProfile a b = true) : nodes.isSameProfile b a = true := by
  unfold isSameProfile at same ⊢
  dsimp only at same ⊢
  revert same
  cases nodes.kind (nodes.strip a) <;> cases nodes.kind (nodes.strip b) <;> grind

theorem isSameProfile_trans {c : Iir} (first : nodes.isSameProfile a b = true)
    (second : nodes.isSameProfile b c = true) : nodes.isSameProfile a c = true := by
  unfold isSameProfile at first second ⊢
  dsimp only at first second ⊢
  revert first second
  cases nodes.kind (nodes.strip a) <;> cases nodes.kind (nodes.strip b) <;> cases nodes.kind (nodes.strip c) <;>
    simp +contextual

theorem isHomograph_symm (same : nodes.isHomograph a b = true) : nodes.isHomograph b a = true := by
  obtain ⟨hash, profile⟩ := Bool.and_eq_true_iff.mp same
  exact Bool.and_eq_true_iff.mpr ⟨decide_eq_true (of_decide_eq_true hash).symm, isSameProfile_symm profile⟩

theorem isHomograph_trans {c : Iir} (first : nodes.isHomograph a b = true) (second : nodes.isHomograph b c = true) :
    nodes.isHomograph a c = true := by
  obtain ⟨hash, profile⟩ := Bool.and_eq_true_iff.mp first
  obtain ⟨hash', profile'⟩ := Bool.and_eq_true_iff.mp second
  exact Bool.and_eq_true_iff.mpr ⟨decide_eq_true ((of_decide_eq_true hash).trans (of_decide_eq_true hash')),
    isSameProfile_trans profile profile'⟩

end Nodes

/-- The interpretation is a homograph of DECL. -/
def IsHomograph (nodes : Nodes Iir) (s : Scopes Iir Id) (decl : Iir) (i : Nat) : Prop :=
  ∃ d, (s.cell i).decl = some d ∧ nodes.isHomograph decl d = true

/-- The first homograph of DECL in a chain: it is visible, and its predecessors could be compared with DECL. -/
structure FirstHomograph (nodes : Nodes Iir) (s : Scopes Iir Id) (decl : Iir) (chain before : List Nat) (homograph : Nat)
    (after : List Nat) : Prop where
  split : chain = before ++ homograph :: after
  isOpen : ∀ i ∈ before, s.Open i
  plain : ∀ i ∈ before, Plain nodes s i
  others : ∀ i ∈ before, ¬ IsHomograph nodes s decl i
  valid : s.Valid homograph
  plainHomograph : Plain nodes s homograph
  isHomograph : IsHomograph nodes s decl homograph

/-- The result of a search for a homograph. -/
def Search (nodes : Nodes Iir) (s : Scopes Iir Id) (decl : Iir) (prev : Nat) (l : List Nat) :
    Option (Nat × Nat × Iir) → Prop
  | none => ∀ i ∈ l, Plain nodes s i ∧ ¬ IsHomograph nodes s decl i
  | some (homograph, prevHomograph, currentDecl) =>
    ∃ before after, l = before ++ homograph :: after ∧
      (∀ i ∈ before, Plain nodes s i ∧ ¬ IsHomograph nodes s decl i) ∧ prevHomograph = before.getLastD prev ∧
      (s.cell homograph).decl = some currentDecl ∧ nodes.isOverloadable currentDecl = true ∧
      nodes.isHomograph decl currentDecl = true

variable {s : Scopes Iir Id}

theorem findHomograph_spec {prev : Nat} {l : List Nat} {found : Option (Nat × Nat × Iir)}
    (run : findHomograph nodes s decl prev l = .ok found) : Search nodes s decl prev l found := by
  induction l generalizing prev with
  | nil =>
    obtain rfl := Except.ok.inj run
    exact fun i inside => absurd inside List.not_mem_nil
  | cons i l ih =>
    rw [findHomograph] at run
    split at run
    · exact absurd run (by simp)
    · rename_i currentDecl isDecl
      split at run
      · exact absurd run (by simp)
      · rename_i overloadable
        rw [not_not] at overloadable
        have plain : Plain nodes s i := ⟨currentDecl, isDecl, overloadable⟩
        split at run
        · rename_i same
          obtain rfl := Except.ok.inj run
          exact ⟨[], l, rfl, fun j inside => absurd inside List.not_mem_nil, rfl, isDecl, overloadable, same⟩
        · rename_i different
          have other : ¬ IsHomograph nodes s decl i := by
            intro isHomograph
            obtain ⟨d, isD, same⟩ := isHomograph
            obtain rfl := Option.some.inj (isDecl.symm.trans isD)
            exact different same
          have rest := ih run
          match found, rest with
          | none, rest =>
            intro j inside
            rcases List.mem_cons.mp inside with rfl | inside
            · exact ⟨plain, other⟩
            · exact rest j inside
          | some (homograph, prevHomograph, currentDecl), rest =>
            obtain ⟨before, after, rfl, all, isPrev, facts⟩ := rest
            refine ⟨i :: before, after, rfl, fun j inside => ?_, ?_, facts⟩
            · rcases List.mem_cons.mp inside with rfl | inside
              · exact ⟨plain, other⟩
              · exact all j inside
            · rw [isPrev, List.getLastD_cons]

/-- The rule of GHDL from before VHDL 2008 lets DECL replace a homograph of an outer region. -/
def Overrides (nodes : Nodes Iir) (flags : Flags) (s : Scopes Iir Id) (decl : Iir) (potentially : Bool) (homograph : Nat) :
    Prop :=
  potentially = true ∧ flags.vhdl08 = false ∧ flags.explicit = false ∧ nodes.isImplicitSubprogram decl = false ∧
    ∃ current, (s.cell homograph).decl = some current ∧ nodes.parent decl = nodes.parent current ∧
      nodes.isImplicitSubprogram current = true

/-- What an action supposes. -/
def Action.Supposes (nodes : Nodes Iir) (flags : Flags) (v : View Iir Id) (decl : Iir) (ident : Id) (potentially : Bool) :
    Action Iir → Prop
  | .discard | .report _ => True
  | .add true d =>
    (d = some decl ∨ d = none) ∧
      ∀ i l, v.chain ident = i :: l → v.scopes.Valid i → (∃ e, d = some e ∧ nodes.isOverloadable e = true) →
        ¬ Plain nodes v.scopes i
  | .add false d =>
    d = some decl ∧ nodes.isOverloadable decl = true ∧ (∃ i l, v.chain ident = i :: l ∧ Plain nodes v.scopes i) ∧
      (potentially = true → some decl ∉ v.scopes.declarations ident)
  | .replace homograph =>
    nodes.isOverloadable decl = true ∧
      (∃ before after, FirstHomograph nodes v.scopes decl (v.chain ident) before homograph after) ∧
      (potentially = true → some decl ∉ v.scopes.declarations ident) ∧
      (v.scopes.InCurrentRegion homograph ∨ Overrides nodes flags v.scopes decl potentially homograph)
  | .addAndHide homograph prevHomograph =>
    nodes.isOverloadable decl = true ∧
      (∃ before after, FirstHomograph nodes v.scopes decl (v.chain ident) before homograph after ∧
        prevHomograph = before.getLastD noInterpretation) ∧
      (potentially = true → some decl ∉ v.scopes.declarations ident)

variable {currentDecl : Iir}

variable (nodes flags decl) in
theorem sameParentAction_supposes {homograph : Nat} (pot : potentially = true)
    (isDecl : (s.cell homograph).decl = some currentDecl) :
    sameParentAction nodes flags decl currentDecl homograph = .discard ∨
      sameParentAction nodes flags decl currentDecl homograph = .add false (some decl) ∨
      sameParentAction nodes flags decl currentDecl homograph = .replace homograph ∧
        Overrides nodes flags s decl potentially homograph := by
  unfold sameParentAction
  dsimp only
  split
  · rename_i rule
    split
    · rename_i override
      refine Or.inr (Or.inr ⟨rfl, pot, ?_, ?_, ?_, currentDecl, isDecl, rule.2.2, override.1⟩)
      · simpa using rule.1
      · simpa using rule.2.1
      · simpa using override.2
    · split
      · exact Or.inl rfl
      · exact Or.inr (Or.inl rfl)
  · exact Or.inr (Or.inl rfl)

theorem potentialAction_supposes {homograph prevHomograph : Nat} {a : Action Iir}
    (pot : potentially = true) (isDecl : (s.cell homograph).decl = some currentDecl)
    (run : potentialAction nodes flags s decl currentDecl homograph prevHomograph = .ok a) :
    a = .discard ∨ a = .add false (some decl) ∨ a = .addAndHide homograph prevHomograph ∨
      a = .replace homograph ∧ (s.InCurrentRegion homograph ∨ Overrides nodes flags s decl potentially homograph) := by
  have parent : ∀ a, sameParentAction nodes flags decl currentDecl homograph = a →
      a = .discard ∨ a = .add false (some decl) ∨ a = .addAndHide homograph prevHomograph ∨
        a = .replace homograph ∧ (s.InCurrentRegion homograph ∨ Overrides nodes flags s decl potentially homograph) := by
    rintro a rfl
    rcases sameParentAction_supposes nodes flags decl pot isDecl with discard | add | ⟨replace, overrides⟩
    · exact Or.inl discard
    · exact Or.inr (Or.inl add)
    · exact Or.inr (Or.inr (Or.inr ⟨replace, Or.inr overrides⟩))
  unfold potentialAction at run
  split at run
  · exact Or.inl (Except.ok.inj run).symm
  · split at run
    · obtain ⟨implicitCurrentDecl, -, run⟩ := bind_ok.mp run
      obtain ⟨implicitDecl, -, run⟩ := bind_ok.mp run
      split at run
      · split at run
        · rename_i current
          exact Or.inr (Or.inr (Or.inr ⟨(Except.ok.inj run).symm, Or.inl current⟩))
        · exact Or.inr (Or.inr (Or.inl (Except.ok.inj run).symm))
      · split at run
        · exact Or.inl (Except.ok.inj run).symm
        · split at run
          · exact Or.inl (Except.ok.inj run).symm
          · exact parent a (Except.ok.inj run)
    · exact parent a (Except.ok.inj run)

theorem directAction_supposes (nodes : Nodes Iir) (flags : Flags) (s : Scopes Iir Id) (decl currentDecl : Iir)
    (homograph prevHomograph : Nat) : directAction nodes flags s decl currentDecl homograph prevHomograph = .discard ∨
      directAction nodes flags s decl currentDecl homograph prevHomograph = .report (.redeclaration currentDecl) ∨
      directAction nodes flags s decl currentDecl homograph prevHomograph = .addAndHide homograph prevHomograph ∨
      directAction nodes flags s decl currentDecl homograph prevHomograph = .replace homograph ∧
        s.InCurrentRegion homograph := by
  unfold directAction
  dsimp only
  split
  · rename_i rule
    split
    · split
      · split
        · exact Or.inr (Or.inr (Or.inr ⟨rfl, rule.2⟩))
        · exact Or.inl rfl
      · split
        · exact Or.inl rfl
        · split
          · exact Or.inr (Or.inl rfl)
          · exact Or.inr (Or.inr (Or.inl rfl))
    · split
      · exact Or.inr (Or.inl rfl)
      · exact Or.inr (Or.inr (Or.inl rfl))
  · exact Or.inr (Or.inr (Or.inl rfl))

theorem homographAction_supposes {currentInter : Nat} {a : Action Iir}
    (run : homographAction nodes flags s decl currentDecl currentInter potentially = .ok a) :
    a = .discard ∨ (∃ message, a = .report message) ∨ a = .add true none ∨ a = .add true (some decl) := by
  unfold homographAction at run
  split at run
  · split at run
    · split at run
      · split at run
        · exact absurd run (by simp)
        · split at run
          · exact Or.inl (Except.ok.inj run).symm
          · exact Or.inr (Or.inr (Or.inl (Except.ok.inj run).symm))
      · exact Or.inr (Or.inr (Or.inr (Except.ok.inj run).symm))
    · split at run
      · exact Or.inl (Except.ok.inj run).symm
      · split at run
        · exact Or.inl (Except.ok.inj run).symm
        · exact Or.inr (Or.inl ⟨_, (Except.ok.inj run).symm⟩)
  · exact Or.inr (Or.inr (Or.inr (Except.ok.inj run).symm))

omit [DecidableEq Iir] in
theorem View.Holds.getInterpretation_valid (holds : v.Holds nodes)
    (valid : v.scopes.Valid (v.scopes.getInterpretation ident)) :
    ∃ i l, v.chain ident = i :: l ∧ v.scopes.getInterpretation ident = i ∧ v.scopes.Valid i ∧
      v.scopes.isConflict i = false ∧ v.scopes.nameInfo ident = i := by
  have first := holds.first
  unfold Scopes.getInterpretation Scopes.getInterpretationFromRaw at valid ⊢
  split at valid
  · rename_i both
    rw [if_pos both]
    have positive : v.scopes.nameInfo ident ≠ noInterpretation := by
      intro zero
      have bound : v.scopes.firstInterpretation ≤ v.scopes.nameInfo ident := both.1
      rw [zero] at bound
      exact absurd bound (Nat.not_le_of_lt first)
    have head := holds.nameInfo_eq ident
    cases isChain : v.chain ident with
    | nil =>
      rw [isChain] at head
      exact absurd head positive
    | cons i l =>
      rw [isChain] at head
      have isHead : v.scopes.nameInfo ident = i := head
      refine ⟨i, l, rfl, isHead, isHead ▸ both.1, ?_, isHead⟩
      rw [← isHead]
      simpa using both.2
  · have bound : v.scopes.firstInterpretation ≤ noInterpretation := valid
    exact absurd bound (Nat.not_le_of_lt first)

/-- What `Add_Name` does is done where it may be. -/
theorem addNameAction_supposes (holds : v.Holds nodes) {a : Action Iir}
    (run : addNameAction nodes flags v.scopes decl ident potentially = .ok a) :
    a.Supposes nodes flags v decl ident potentially := by
  unfold addNameAction at run
  dsimp only at run
  split at run
  · -- There is no valid interpretation, or there is a conflict.
    rename_i notValid
    obtain rfl := Except.ok.inj run
    refine ⟨Or.inl rfl, fun i l isChain valid _ plain => notValid ?_⟩
    obtain ⟨d, isDecl, -⟩ := plain
    have head := holds.nameInfo_eq ident
    rw [isChain] at head
    have isHead : v.scopes.nameInfo ident = i := head
    unfold Scopes.getInterpretation Scopes.getInterpretationFromRaw
    rw [isHead, if_pos ⟨valid, by simp [Scopes.isConflict, isDecl]⟩]
    exact valid
  · rename_i isValid
    rw [not_not] at isValid
    obtain ⟨i, l, isChain, isInter, valid, notConflict, isHead⟩ := holds.getInterpretation_valid isValid
    rw [isInter] at run
    have visible : v.scopes.visible ident = v.scopes.follow (v.chain ident) := by
      rw [holds.visible_eq, isHead, if_neg (by simp [notConflict])]
    split at run
    · rename_i isNone
      exact absurd notConflict (by simp [Scopes.isConflict, isNone])
    · rename_i currentDecl isDecl
      split at run
      · obtain rfl := Except.ok.inj run
        trivial
      · rename_i notAgain
        have fresh : potentially = true → some decl ∉ v.scopes.declarations ident :=
          fun pot again => notAgain ⟨pot, again⟩
        split at run
        · -- Both declarations can be overloaded.
          rename_i both
          obtain ⟨found, search, run⟩ := bind_ok.mp run
          have spec := findHomograph_spec search
          have plainHead : Plain nodes v.scopes i := ⟨currentDecl, isDecl, both.1⟩
          match found, spec with
          | none, spec =>
            obtain rfl := Except.ok.inj run
            exact ⟨rfl, both.2, ⟨i, l, isChain, plainHead⟩, fresh⟩
          | some (homograph, prevHomograph, currentDecl), spec =>
            obtain ⟨before, after, split, all, isPrev, isDecl', overloadable, same⟩ := spec
            rw [visible] at split
            obtain ⟨rest, split', isOpen, valid', -⟩ := Scopes.follow_eq_append split
            have first : FirstHomograph nodes v.scopes decl (v.chain ident) before homograph rest :=
              ⟨split', isOpen, fun j inside => (all j inside).1, fun j inside => (all j inside).2, valid',
                ⟨currentDecl, isDecl', overloadable⟩, ⟨currentDecl, isDecl', same⟩⟩
            dsimp only at run
            split at run
            · rename_i pot
              rcases potentialAction_supposes pot isDecl' run with rfl | rfl | rfl | ⟨rfl, place⟩
              · trivial
              · exact ⟨rfl, both.2, ⟨i, l, isChain, plainHead⟩, fresh⟩
              · exact ⟨both.2, ⟨before, rest, first, isPrev⟩, fresh⟩
              · exact ⟨both.2, ⟨before, rest, first⟩, fresh, place⟩
            · obtain rfl := Except.ok.inj run
              rcases directAction_supposes nodes flags v.scopes decl currentDecl homograph prevHomograph
                with action | action | action | ⟨action, current⟩ <;> rw [action]
              · trivial
              · trivial
              · exact ⟨both.2, ⟨before, rest, first, isPrev⟩, fresh⟩
              · exact ⟨both.2, ⟨before, rest, first⟩, fresh, Or.inl current⟩
        · rename_i notBoth
          rcases homographAction_supposes run with rfl | ⟨message, rfl⟩ | rfl | rfl
          · trivial
          · trivial
          · refine ⟨Or.inr rfl, fun _ _ _ _ overloadable => ?_⟩
            obtain ⟨e, isSome, -⟩ := overloadable
            exact absurd isSome (by simp)
          · refine ⟨Or.inl rfl, fun j m isChain' _ overloadable plain => ?_⟩
            obtain ⟨e, isSome, overloadable⟩ := overloadable
            obtain ⟨d, isD, overloadable'⟩ := plain
            obtain ⟨rfl, -⟩ := List.cons.inj (isChain.symm.trans isChain')
            obtain rfl := Option.some.inj isSome
            obtain rfl := Option.some.inj (isDecl.symm.trans isD)
            exact notBoth ⟨overloadable', overloadable⟩

end Ghdl.SemScopes
