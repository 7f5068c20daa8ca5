import Ghdl.System.Traces
import Ghdl.Vhdl.ScopeNests

/-!
# Visible interpretations

The flag that hides the interpretations before a cell belongs to the cell: when this one is hidden itself by a
homograph, what it was hiding is linked behind the new interpretation, which does not hide it. And a direct declaration
is not looked for among the visible ones. Wherever neither happens, the visible interpretations of an identifier are
those of different declarations, which can be overloaded when there are several.
-/

namespace Ghdl.SemScopes

open Linked Fallible Transition Function

variable {Iir Id : Type}

/-- The declarations are real and different ones, and can be overloaded where there are several. -/
def Sound (nodes : Nodes Iir) (declarations : List (Option Iir)) : Prop :=
  none ∉ declarations ∧ declarations.Nodup ∧
    (1 < declarations.length → ∀ d, some d ∈ declarations → nodes.isOverloadable d = true)

/-- The visible declarations of each identifier are sound. -/
def ChainsSound (nodes : Nodes Iir) (s : Scopes Iir Id) : Prop := ∀ id, Sound nodes (s.declarations id)

/-- A step neither declares again what is visible by an interpretation that stays so, nor hides an interpretation that
hides a valid one. -/
def Keeps [DecidableEq Iir] [DecidableEq Id] (nodes : Nodes Iir) (flags : Flags) (s : Scopes Iir Id) :
    Operation Iir Id → Prop
  | .addName decl ident potentially =>
    match addNameAction nodes flags s decl ident potentially with
    | .ok (.add false _) => ∀ i ∈ s.visible ident, (s.cell i).decl ≠ some decl
    | .ok (.replace homograph) => Fresh s ident decl homograph
    | .ok (.addAndHide homograph _) =>
      Fresh s ident decl homograph ∧ ¬ ((s.cell homograph).prevHidden = true ∧ s.Valid (s.cell homograph).prev)
    | _ => True
  | _ => True

section Lists

variable {nodes : Nodes Iir} {s s' : Scopes Iir Id} {l : List Nat}

theorem Sound.nil : Sound nodes [] := ⟨List.not_mem_nil, List.nodup_nil, fun _ _ inside => absurd inside List.not_mem_nil⟩

theorem Sound.singleton (d : Iir) : Sound nodes [some d] :=
  ⟨by simp, List.nodup_singleton _, fun more => absurd more (by simp)⟩

theorem Sound.cons {d : Iir} {declarations : List (Option Iir)} (real : none ∉ declarations)
    (distinct : declarations.Nodup) (overloadable : nodes.isOverloadable d = true)
    (others : ∀ e, some e ∈ declarations → nodes.isOverloadable e = true) (fresh : some d ∉ declarations) :
    Sound nodes (some d :: declarations) := by
  refine ⟨?_, List.nodup_cons.mpr ⟨fresh, distinct⟩, fun _ e inside => ?_⟩
  · intro inside
    rcases List.mem_cons.mp inside with none | inside
    · exact absurd none (by simp)
    · exact real inside
  · rcases List.mem_cons.mp inside with same | inside
    · rw [Option.some.inj same]
      exact overloadable
    · exact others e inside

theorem Scopes.follow_congr (first : s'.firstInterpretation = s.firstInterpretation)
    (same : ∀ i ∈ l, (s'.cell i).prevHidden = (s.cell i).prevHidden) : s'.follow l = s.follow l := by
  induction l with
  | nil => rfl
  | cons i l ih =>
    have valid : s'.Valid i ↔ s.Valid i := by
      unfold Scopes.Valid
      rw [first]
    unfold Scopes.follow
    rw [same i List.mem_cons_self, ih fun j inside => same j (List.mem_cons_of_mem i inside)]
    simp only [valid]

end Lists

variable {nodes : Nodes Iir} {v u : View Iir Id}

theorem View.Holds.visible_congr (holds : v.Holds nodes) (holds' : u.Holds nodes) {id : Id} (chain : u.chain id = v.chain id)
    (first : u.scopes.firstInterpretation = v.scopes.firstInterpretation)
    (flags : ∀ i ∈ v.chain id, (u.scopes.cell i).prevHidden = (v.scopes.cell i).prevHidden)
    (conflicts : ∀ i ∈ v.chain id, u.scopes.isConflict i = v.scopes.isConflict i) :
    u.scopes.visible id = v.scopes.visible id := by
  have names : u.scopes.nameInfo id = v.scopes.nameInfo id := by
    rw [holds.nameInfo_eq, holds'.nameInfo_eq, chain]
  rw [holds.visible_eq, holds'.visible_eq, names, chain, Scopes.follow_congr first flags]
  have head := holds.nameInfo_eq id
  cases isChain : v.chain id with
  | nil => simp [Scopes.follow]
  | cons i l =>
    rw [isChain] at head
    have isHead : v.scopes.nameInfo id = i := head
    rw [isHead, conflicts i (by rw [isChain]; exact List.mem_cons_self)]

theorem View.Holds.visible_subset (holds : v.Holds nodes) {id : Id} {i : Nat} (inside : i ∈ v.scopes.visible id) :
    i ∈ v.chain id := by
  rw [holds.visible_eq] at inside
  split at inside
  · exact absurd inside List.not_mem_nil
  · exact Scopes.follow_sublist.subset inside

theorem View.Holds.visible_nodup (holds : v.Holds nodes) (id : Id) : (v.scopes.visible id).Nodup := by
  rw [holds.visible_eq]
  split
  · exact List.nodup_nil
  · exact (holds.nodup id).sublist Scopes.follow_sublist

theorem declarations_congr {s s' : Scopes Iir Id} {id : Id} (visible : s'.visible id = s.visible id)
    (same : ∀ i ∈ s.visible id, (s'.cell i).decl = (s.cell i).decl) : s'.declarations id = s.declarations id := by
  unfold Scopes.declarations
  rw [visible]
  exact List.map_congr_left same

variable [DecidableEq Id] {ident : Id} {potentially hidPrev : Bool} {d : Option Iir} {decl : Iir} {homograph prev : Nat}

section

variable (holds : v.Holds nodes)
include holds

theorem View.declarations_add_of_ne (added : (v.add ident potentially hidPrev d).Holds nodes) {id : Id}
    (other : id ≠ ident) : (v.add ident potentially hidPrev d).scopes.declarations id = v.scopes.declarations id := by
  have cell : ∀ i ∈ v.chain id, (v.add ident potentially hidPrev d).scopes.cell i = v.scopes.cell i :=
    fun i inside => View.add_cell (holds.inside id i inside)
  have visible := holds.visible_congr added (View.add_chain_of_ne other) rfl
    (fun i inside => congrArg Cell.prevHidden (cell i inside))
    (fun i inside => congrArg (fun c : Cell Iir Id => c.decl.isNone) (cell i inside))
  exact declarations_congr visible fun i inside => congrArg Cell.decl (cell i (holds.visible_subset inside))

/-- A new interpretation that hides those before it is the only one, or it is a conflict. -/
theorem View.declarations_add_true (added : (v.add ident potentially true d).Holds nodes) :
    (v.add ident potentially true d).scopes.declarations ident = if d.isNone then [] else [d] := by
  have name : (v.add ident potentially true d).scopes.nameInfo ident = v.scopes.last + 1 := update_self _ _ _
  have conflict : (v.add ident potentially true d).scopes.isConflict (v.scopes.last + 1) = d.isNone :=
    congrArg (fun c : Cell Iir Id => c.decl.isNone) View.add_cell_last
  have valid : (v.add ident potentially true d).scopes.Valid (v.scopes.last + 1) := holds.reach
  have hides : ((v.add ident potentially true d).scopes.cell (v.scopes.last + 1)).prevHidden = true :=
    congrArg Cell.prevHidden View.add_cell_last
  unfold Scopes.declarations
  rw [added.visible_eq, name, conflict, View.add_chain_self]
  split
  · rfl
  · rw [Scopes.follow, if_pos valid, if_pos hides, List.map_cons, View.add_cell_last]
    rfl

theorem View.visible_add_false (added : (v.add ident potentially false (some decl)).Holds nodes)
    (plain : ∃ i l, v.chain ident = i :: l ∧ Plain nodes v.scopes i) :
    (v.add ident potentially false (some decl)).scopes.visible ident = (v.scopes.last + 1) :: v.scopes.visible ident ∧
      v.scopes.visible ident = v.scopes.follow (v.chain ident) := by
  have name : (v.add ident potentially false (some decl)).scopes.nameInfo ident = v.scopes.last + 1 :=
    update_self _ _ _
  have conflict : (v.add ident potentially false (some decl)).scopes.isConflict (v.scopes.last + 1) = false :=
    congrArg (fun c : Cell Iir Id => c.decl.isNone) View.add_cell_last
  have valid : (v.add ident potentially false (some decl)).scopes.Valid (v.scopes.last + 1) := holds.reach
  have shows : ((v.add ident potentially false (some decl)).scopes.cell (v.scopes.last + 1)).prevHidden = false :=
    congrArg Cell.prevHidden View.add_cell_last
  have old : v.scopes.visible ident = v.scopes.follow (v.chain ident) := by
    obtain ⟨i, l, isChain, d, isDecl, -⟩ := plain
    have head := holds.nameInfo_eq ident
    rw [isChain] at head
    have isHead : v.scopes.nameInfo ident = i := head
    rw [holds.visible_eq, isHead, if_neg (by simp [Scopes.isConflict, isDecl])]
  have followed : (v.add ident potentially false (some decl)).scopes.follow (v.chain ident) = v.scopes.follow (v.chain ident) :=
    Scopes.follow_congr rfl fun i inside => congrArg Cell.prevHidden (View.add_cell (holds.inside ident i inside))
  refine ⟨?_, old⟩
  rw [added.visible_eq, name, conflict, View.add_chain_self, if_neg Bool.false_ne_true, Scopes.follow, if_pos valid, shows,
    if_neg Bool.false_ne_true, followed, old]

theorem View.declarations_add_false (added : (v.add ident potentially false (some decl)).Holds nodes)
    (plain : ∃ i l, v.chain ident = i :: l ∧ Plain nodes v.scopes i) :
    (v.add ident potentially false (some decl)).scopes.declarations ident = some decl :: v.scopes.declarations ident := by
  have visible := (View.visible_add_false holds added plain).1
  unfold Scopes.declarations
  rw [visible, List.map_cons, View.add_cell_last]
  congr 1
  apply List.map_congr_left
  intro i inside
  exact congrArg Cell.decl (View.add_cell (holds.inside ident i (holds.visible_subset inside)))

theorem View.declarations_hide_of_ne (hidden : (v.hide ident homograph prev).Holds nodes) {id : Id}
    (other : id ≠ ident) : (v.hide ident homograph prev).scopes.declarations id = v.scopes.declarations id := by
  have visible := holds.visible_congr hidden (View.hide_chain_of_ne other) rfl (fun i _ => View.hide_prevHidden i)
    (fun i _ => congrArg Option.isNone (View.hide_decl i))
  exact declarations_congr visible fun i _ => View.hide_decl i

end

omit [DecidableEq Id] in
theorem View.visible_replace (holds : v.Holds nodes) (plain : homograph ≤ v.scopes.last → Plain nodes v.scopes homograph)
    (overloadable : nodes.isOverloadable decl = true) (id : Id) :
    (v.replace homograph decl).scopes.visible id = v.scopes.visible id := by
  have replaced := holds.replace plain overloadable
  have conflicts : ∀ i, (v.replace homograph decl).scopes.isConflict i = v.scopes.isConflict i := by
    intro i
    unfold Scopes.isConflict
    rw [View.replace_cell]
    split
    · rename_i here
      obtain ⟨d, isDecl, -⟩ := plain (here.1 ▸ here.2.2)
      rw [here.1, isDecl]
      rfl
    · rfl
  exact holds.visible_congr replaced rfl rfl (fun i _ => View.replace_prevHidden i) fun i _ => conflicts i

variable [DecidableEq Iir] {before after : List Nat}

omit [DecidableEq Id] in
theorem FirstHomograph.visible_split (holds : v.Holds nodes)
    (first : FirstHomograph nodes v.scopes decl (v.chain ident) before homograph after) : v.scopes.visible ident =
      before ++ homograph :: if (v.scopes.cell homograph).prevHidden then [] else v.scopes.follow after := by
  rw [first.visible_eq holds, first.split, Scopes.follow_append first.isOpen, Scopes.follow, if_pos first.valid]

theorem View.visible_hide (holds : v.Holds nodes) (added : (v.add ident potentially false (some decl)).Holds nodes)
    (hidden : ((v.add ident potentially false (some decl)).hide ident homograph prev).Holds nodes)
    (first : FirstHomograph nodes v.scopes decl (v.chain ident) before homograph after) :
    ((v.add ident potentially false (some decl)).hide ident homograph prev).scopes.visible ident =
      (v.scopes.last + 1) :: before ++ v.scopes.follow after := by
  have name : ((v.add ident potentially false (some decl)).hide ident homograph prev).scopes.nameInfo ident =
      v.scopes.last + 1 := update_self _ _ _
  have conflict : ((v.add ident potentially false (some decl)).hide ident homograph prev).scopes.isConflict
      (v.scopes.last + 1) = false := by
    have decls : (((v.add ident potentially false (some decl)).hide ident homograph prev).scopes.cell (v.scopes.last + 1)).decl =
        ((v.add ident potentially false (some decl)).scopes.cell (v.scopes.last + 1)).decl := View.hide_decl _
    rw [View.add_cell_last] at decls
    unfold Scopes.isConflict
    rw [decls]
    rfl
  have split : (v.add ident potentially false (some decl)).chain ident =
      ((v.scopes.last + 1) :: before) ++ homograph :: after := by
    rw [View.add_chain_self, first.split]
    rfl
  have flags : ∀ i ∈ (v.scopes.last + 1) :: before,
      ((v.add ident potentially false (some decl)).hide ident homograph prev).scopes.Open i := by
    intro i inside
    have hide : (((v.add ident potentially false (some decl)).hide ident homograph prev).scopes.cell i).prevHidden =
        ((v.add ident potentially false (some decl)).scopes.cell i).prevHidden := View.hide_prevHidden i
    rcases List.mem_cons.mp inside with rfl | inside
    · refine ⟨holds.reach, ?_⟩
      rw [hide, View.add_cell_last]
    have inChain : i ∈ v.chain ident := by
      rw [first.split]
      exact List.mem_append_left _ inside
    refine ⟨(first.isOpen i inside).1, ?_⟩
    rw [hide, View.add_cell (holds.inside ident i inChain)]
    exact (first.isOpen i inside).2
  have rest : ((v.add ident potentially false (some decl)).hide ident homograph prev).scopes.follow after =
      v.scopes.follow after := by
    refine Scopes.follow_congr rfl fun i inside => ?_
    have inChain : i ∈ v.chain ident := by
      rw [first.split]
      exact List.mem_append_right before (List.mem_cons_of_mem homograph inside)
    rw [View.hide_prevHidden, View.add_cell (holds.inside ident i inChain)]
  rw [hidden.visible_eq, name, conflict, if_neg Bool.false_ne_true, View.hide_chain_self, added.erase_eq split,
    Scopes.follow_append flags, rest]

theorem View.declarations_hide (holds : v.Holds nodes) (added : (v.add ident potentially false (some decl)).Holds nodes)
    (hidden : ((v.add ident potentially false (some decl)).hide ident homograph prev).Holds nodes)
    (first : FirstHomograph nodes v.scopes decl (v.chain ident) before homograph after) :
    ((v.add ident potentially false (some decl)).hide ident homograph prev).scopes.declarations ident =
      some decl :: (before ++ v.scopes.follow after).map fun i => (v.scopes.cell i).decl := by
  unfold Scopes.declarations
  rw [View.visible_hide holds added hidden first, List.cons_append, List.map_cons, View.hide_decl, View.add_cell_last]
  congr 1
  apply List.map_congr_left
  intro i inside
  have inChain : i ∈ v.chain ident := by
    rw [first.split]
    rcases List.mem_append.mp inside with inside | inside
    · exact List.mem_append_left _ inside
    · exact List.mem_append_right before (List.mem_cons_of_mem homograph (Scopes.follow_sublist.subset inside))
  rw [View.hide_decl, View.add_cell (holds.inside ident i inChain)]

omit [DecidableEq Id] in
/-- Without a valid interpretation behind a homograph that hides, only the homograph is not visible any more. -/
theorem FirstHomograph.visible_erase (holds : v.Holds nodes)
    (first : FirstHomograph nodes v.scopes decl (v.chain ident) before homograph after)
    (closed : ¬ ((v.scopes.cell homograph).prevHidden = true ∧ v.scopes.Valid (v.scopes.cell homograph).prev)) :
    (v.scopes.visible ident).erase homograph = before ++ v.scopes.follow after := by
  have distinct := holds.nodup ident
  rw [first.split] at distinct
  have notBefore : homograph ∉ before := fun inside =>
    (List.nodup_append.mp distinct).2.2 homograph inside homograph List.mem_cons_self rfl
  rw [first.visible_split holds, List.erase_append_right _ notBefore, List.erase_cons_head]
  congr 1
  split
  · rename_i hides
    cases isAfter : after with
    | nil => rfl
    | cons j rest =>
      have visits := holds.visits ident
      rw [first.split, isAfter] at visits
      have isPrev : (v.scopes.cell homograph).prev = j := visits.next_eq
      have invalid : ¬ v.scopes.Valid j := fun valid => closed ⟨hides, isPrev ▸ valid⟩
      rw [Scopes.follow, if_neg invalid]
  · rfl

omit [DecidableEq Id] [DecidableEq Iir] in
theorem mem_declarations {s : Scopes Iir Id} {id : Id} {d : Option Iir} :
    d ∈ s.declarations id ↔ ∃ i ∈ s.visible id, (s.cell i).decl = d := List.mem_map

omit [DecidableEq Id] [DecidableEq Iir] in
theorem length_declarations (s : Scopes Iir Id) (id : Id) : (s.declarations id).length = (s.visible id).length :=
  List.length_map _

omit [DecidableEq Iir] in
theorem sound_add_false (holds : v.Holds nodes) (added : (v.add ident potentially false (some decl)).Holds nodes)
    (overloadable : nodes.isOverloadable decl = true) (plain : ∃ i l, v.chain ident = i :: l ∧ Plain nodes v.scopes i)
    (sound : ChainsSound nodes v.scopes) : ChainsSound nodes (v.add ident potentially false (some decl)).scopes ↔
      ∀ i ∈ v.scopes.visible ident, (v.scopes.cell i).decl ≠ some decl := by
  have here := View.declarations_add_false holds added plain
  constructor
  · intro sound' i inside isDecl
    have distinct := (sound' ident).2.1
    rw [here] at distinct
    exact (List.nodup_cons.mp distinct).1 (mem_declarations.mpr ⟨i, inside, isDecl⟩)
  · intro fresh id
    by_cases same : id = ident
    · subst same
      obtain ⟨real, distinct, several⟩ := sound id
      rw [here]
      refine Sound.cons real distinct overloadable (fun e inside => ?_) fun inside => ?_
      · by_cases more : 1 < (v.scopes.declarations id).length
        · exact several more e inside
        -- The only visible interpretation is the first one of the chain.
        obtain ⟨i, l, isChain, d, isDecl, overloadable'⟩ := plain
        have visible := (View.visible_add_false holds added ⟨i, l, isChain, d, isDecl, overloadable'⟩).2
        obtain ⟨j, inVisible, isE⟩ := mem_declarations.mp inside
        rw [isChain, Scopes.follow] at visible
        split at visible
        · rw [length_declarations, visible] at more
          rw [visible] at inVisible
          have single : (if (v.scopes.cell i).prevHidden = true then [] else v.scopes.follow l) = [] := by
            apply List.eq_nil_of_length_eq_zero
            rw [List.length_cons] at more
            omega
          rw [single, List.mem_singleton] at inVisible
          rw [inVisible, isDecl] at isE
          rw [← Option.some.inj isE]
          exact overloadable'
        · rw [visible] at inVisible
          exact absurd inVisible List.not_mem_nil
      · obtain ⟨i, inVisible, isDecl⟩ := mem_declarations.mp inside
        exact fresh i inVisible isDecl
    · rw [View.declarations_add_of_ne holds added same]
      exact sound id

omit [DecidableEq Iir] in
theorem sound_add_true (holds : v.Holds nodes) (added : (v.add ident potentially true d).Holds nodes)
    (sound : ChainsSound nodes v.scopes) : ChainsSound nodes (v.add ident potentially true d).scopes := by
  intro id
  by_cases same : id = ident
  · subst same
    rw [View.declarations_add_true holds added]
    cases d with
    | none => exact Sound.nil
    | some d => exact Sound.singleton d
  · rw [View.declarations_add_of_ne holds added same]
    exact sound id

/-- A hidden homograph is sound exactly where it hides no valid interpretation itself, and no other interpretation has
the new declaration. -/
theorem sound_hide (holds : v.Holds nodes) (added : (v.add ident potentially false (some decl)).Holds nodes)
    (hidden : ((v.add ident potentially false (some decl)).hide ident homograph prev).Holds nodes)
    (first : FirstHomograph nodes v.scopes decl (v.chain ident) before homograph after)
    (overloadable : nodes.isOverloadable decl = true) (sound : ChainsSound nodes v.scopes) :
    ChainsSound nodes ((v.add ident potentially false (some decl)).hide ident homograph prev).scopes ↔
      Fresh v.scopes ident decl homograph ∧
        ¬ ((v.scopes.cell homograph).prevHidden = true ∧ v.scopes.Valid (v.scopes.cell homograph).prev) := by
  have here := View.declarations_hide holds added hidden first
  obtain ⟨real, distinct, several⟩ := sound ident
  constructor
  · intro sound'
    obtain ⟨real', distinct', several'⟩ := sound' ident
    rw [here] at real' distinct' several'
    have closed : ¬ ((v.scopes.cell homograph).prevHidden = true ∧ v.scopes.Valid (v.scopes.cell homograph).prev) := by
      intro leak
      have visits := holds.visits ident
      rw [first.split] at visits
      have positive : v.scopes.Valid noInterpretation → False := fun valid => by
        have bound : v.scopes.firstInterpretation ≤ 0 := valid
        have one := holds.first
        omega
      have next : ∃ j rest, after = j :: rest ∧ (v.scopes.cell homograph).prev = j := by
        cases isAfter : after with
        | nil =>
          rw [isAfter] at visits
          have ends : (v.scopes.cell homograph).prev = noInterpretation := visits.next_eq_null
          exact absurd (ends ▸ leak.2) positive
        | cons j rest =>
          rw [isAfter] at visits
          exact ⟨j, rest, rfl, visits.next_eq⟩
      obtain ⟨j, rest, isAfter, isPrev⟩ := next
      rw [isPrev] at leak
      have inMap : (v.scopes.cell j).decl ∈ (before ++ v.scopes.follow after).map fun i => (v.scopes.cell i).decl := by
        refine List.mem_map.mpr ⟨j, List.mem_append_right before ?_, rfl⟩
        rw [isAfter, Scopes.follow, if_pos leak.2]
        exact List.mem_cons_self
      have isChain : v.chain ident = before ++ homograph :: j :: rest := by
        rw [first.split, isAfter]
      apply holds.cut ident before homograph j rest isChain leak.1 leak.2 first.plainHomograph
      cases isDecl : (v.scopes.cell j).decl with
      | none =>
        rw [isDecl] at inMap
        exact absurd (List.mem_cons_of_mem _ inMap) real'
      | some e =>
        rw [isDecl] at inMap
        refine ⟨e, isDecl, several' ?_ e (List.mem_cons_of_mem _ inMap)⟩
        have some := List.length_pos_of_mem inMap
        rw [List.length_cons]
        omega
    refine ⟨fun i inside other isDecl => ?_, closed⟩
    have inErased : i ∈ (v.scopes.visible ident).erase homograph := (List.mem_erase_of_ne other).mpr inside
    rw [first.visible_erase holds closed] at inErased
    exact (List.nodup_cons.mp distinct').1 (List.mem_map.mpr ⟨i, inErased, isDecl⟩)
  · rintro ⟨fresh, closed⟩ id
    by_cases same : id = ident
    · subst same
      have sub : ((before ++ v.scopes.follow after).map fun i => (v.scopes.cell i).decl).Sublist (v.scopes.declarations id) := by
        rw [← first.visible_erase holds closed]
        exact List.erase_sublist.map _
      rw [here]
      refine Sound.cons (fun inside => real (sub.subset inside)) (distinct.sublist sub) overloadable (fun e inside => ?_)
        fun inside => ?_
      · refine several ?_ e (sub.subset inside)
        -- The homograph and this declaration are visible.
        have shorter : (before ++ v.scopes.follow after).length + 1 = (v.scopes.visible id).length := by
          rw [← first.visible_erase holds closed]
          exact List.length_erase_add_one (first.mem_visible holds)
        have some := List.length_pos_of_mem inside
        rw [List.length_map] at some
        rw [length_declarations]
        omega
      · obtain ⟨i, inMap, isDecl⟩ := List.mem_map.mp inside
        rw [← first.visible_erase holds closed] at inMap
        have other : i ≠ homograph := by
          rintro rfl
          exact (holds.visible_nodup id).not_mem_erase inMap
        exact fresh i (List.mem_of_mem_erase inMap) other isDecl
    · rw [View.declarations_hide_of_ne added hidden same, View.declarations_add_of_ne holds added same]
      exact sound id

omit [DecidableEq Id] in
theorem sound_replace (holds : v.Holds nodes) (first : homograph ≤ v.scopes.last →
      ∃ before after, FirstHomograph nodes v.scopes decl (v.chain ident) before homograph after)
    (overloadable : nodes.isOverloadable decl = true) (sound : ChainsSound nodes v.scopes) :
    ChainsSound nodes (v.replace homograph decl).scopes ↔
      (homograph ≤ v.scopes.last → Fresh v.scopes ident decl homograph) := by
  have plain : homograph ≤ v.scopes.last → Plain nodes v.scopes homograph := fun bound => by
    obtain ⟨before, after, isFirst⟩ := first bound
    exact isFirst.plainHomograph
  have visible : ∀ id, (v.replace homograph decl).scopes.visible id = v.scopes.visible id :=
    View.visible_replace holds plain overloadable
  have others : ∀ i, i ≠ homograph → ((v.replace homograph decl).scopes.cell i).decl = (v.scopes.cell i).decl := by
    intro i other
    rw [View.replace_cell, if_neg fun here => other here.1]
  constructor
  · intro sound' bound i inside other isDecl
    obtain ⟨before, after, isFirst⟩ := first bound
    have inHomograph := isFirst.mem_visible holds
    have positive : homograph ≠ 0 := holds.ne_zero (holds.visible_subset inHomograph)
    have distinct : (((v.replace homograph decl).scopes.visible ident).map fun i =>
        ((v.replace homograph decl).scopes.cell i).decl).Nodup := (sound' ident).2.1
    rw [visible] at distinct
    have equal := List.inj_on_of_nodup_map distinct inside inHomograph (by
      rw [others i other, isDecl, View.replace_cell, if_pos ⟨rfl, positive, bound⟩])
    exact other equal
  · intro fresh id
    obtain ⟨real, distinct, several⟩ := sound id
    by_cases inHomograph : homograph ∈ v.scopes.visible id
    · have inChain := holds.visible_subset inHomograph
      have bound := holds.inside id homograph inChain
      have positive := holds.ne_zero inChain
      obtain ⟨before, after, isFirst⟩ := first bound
      have inChain' : homograph ∈ v.chain ident := holds.visible_subset (isFirst.mem_visible holds)
      obtain rfl : id = ident := holds.disjoint id ident homograph inChain inChain'
      have isNew : ((v.replace homograph decl).scopes.cell homograph).decl = some decl := by
        rw [View.replace_cell, if_pos ⟨rfl, positive, bound⟩]
      have cases : ∀ {e}, e ∈ (v.replace homograph decl).scopes.declarations id → e = some decl ∨ e ∈ v.scopes.declarations id := by
        intro e inside
        obtain ⟨i, inVisible, isDecl⟩ := mem_declarations.mp inside
        by_cases here : i = homograph
        · rw [here, isNew] at isDecl
          exact Or.inl isDecl.symm
        · rw [visible] at inVisible
          rw [others i here] at isDecl
          exact Or.inr (mem_declarations.mpr ⟨i, inVisible, isDecl⟩)
      refine ⟨fun inside => ?_, ?_, fun more e inside => ?_⟩
      · rcases cases inside with isNone | inside
        · exact absurd isNone (by simp)
        · exact real inside
      · unfold Scopes.declarations
        rw [visible]
        refine (holds.visible_nodup id).map_on fun i inI j inJ same => ?_
        by_cases isI : i = homograph
        · by_cases isJ : j = homograph
          · rw [isI, isJ]
          · rw [isI, isNew, others j isJ] at same
            exact absurd same.symm (fresh bound j inJ isJ)
        by_cases isJ : j = homograph
        · rw [isJ, isNew, others i isI] at same
          exact absurd same (fresh bound i inI isI)
        · rw [others i isI, others j isJ] at same
          exact List.inj_on_of_nodup_map distinct inI inJ same
      · rcases cases inside with isDecl | inside
        · rw [Option.some.inj isDecl]
          exact overloadable
        · rw [length_declarations, visible, ← length_declarations] at more
          exact several more e inside
    · rw [declarations_congr (visible id) fun i inside => others i fun here => inHomograph (here ▸ inside)]
      exact ⟨real, distinct, several⟩

end Ghdl.SemScopes
