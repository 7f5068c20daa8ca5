import Ghdl.Psl.Ownership

/-!
# Discovery of states

`Build_Inter` and `Determinize` build an automaton whose states stand for keys: pairs of states, or vectors
of states. A key gets a state when it is met first, and is put on the list of keys that are not handled.
The library is about the automaton, the table of keys and that list; what the keys are is a parameter.
-/

namespace Ghdl.Psl

open Automata Fallible Function

/-- The automaton that is built, the keys with their states, and the keys that are not handled yet. -/
structure Discovery (κ : Type) where
  n : Nfa
  t : Tables
  table : List (κ × NfaState)
  todo : List κ

namespace Discovery

variable {κ : Type} [DecidableEq κ]

/-- The state of a key, which is added when the key is met first. -/
def find (d : Discovery κ) (k : κ) : NfaState × Discovery κ :=
  match d.table.find? fun entry => entry.1 = k with
  | some entry => (entry.2, d)
  | none =>
    let (s, n, t) := d.t.addState d.n
    (s, { n, t, table := d.table ++ [(k, s)], todo := k :: d.todo })

/-- An edge is added between two states. -/
def link (d : Discovery κ) (p q : NfaState) (b : BoolNode) : Discovery κ :=
  { d with t := (d.t.addEdge p q (some b)).2 }

/-- The keys that have a state. -/
def keys (d : Discovery κ) : List κ := d.table.map Prod.fst

/-- What holds of a discovery that started with the tables T₀ and has built the edges LINKS. -/
structure Explores (t₀ : Tables) (links : κ → BoolNode → κ → Prop) (d : Discovery κ) : Prop where
  sound : d.t.Sound
  keysNodup : d.keys.Nodup
  states : d.n.states = d.table.map Prod.snd
  statesNodup : d.n.states.Nodup
  allocated : ∀ s, d.t.Allocated s ↔ t₀.Allocated s ∨ s ∈ d.n.states
  fresh : ∀ s ∈ d.n.states, ¬t₀.Allocated s
  arc : ∀ p x q, d.t.Arc p x q ↔ t₀.Arc p x q ∨
    ∃ k b k', x = some b ∧ (k, p) ∈ d.table ∧ (k', q) ∈ d.table ∧ links k b k'
  known : ∀ {k b k'}, links k b k' → k ∈ d.keys ∧ k' ∈ d.keys
  todo : d.todo.Nodup ∧ ∀ k ∈ d.todo, k ∈ d.keys
  old : ∀ e, t₀.Live e → d.t.Live e ∧ d.t.edgeSrc e = t₀.edgeSrc e ∧ d.t.edgeDest e = t₀.edgeDest e ∧
    d.t.edgeExpr e = t₀.edgeExpr e
  chains : ∀ s, t₀.Allocated s → d.t.srcEdges s = t₀.srcEdges s
  labels : ∀ s, t₀.Allocated s → d.t.stateLabel s = t₀.stateLabel s

/-- Keys of a region were discovered, and are not handled yet. -/
structure Grew (region : κ → Prop) (d d' : Discovery κ) : Prop where
  grown : ∃ new, d'.table = d.table ++ new ∧ d'.todo = (new.map Prod.fst).reverse ++ d.todo ∧
    ∀ entry ∈ new, region entry.1
  frame : d'.n = { d.n with states := d'.n.states }

variable {t₀ : Tables} {links links' : κ → BoolNode → κ → Prop} {d d' d'' : Discovery κ} {k k' : κ}
  {p q s : NfaState} {b : BoolNode} {region : κ → Prop} {w : List Valuation} {x : Option BoolNode}

omit [DecidableEq κ]

theorem mem_keys : k ∈ d.keys ↔ ∃ s, (k, s) ∈ d.table := by
  unfold keys
  rw [List.mem_map]
  constructor
  · rintro ⟨⟨k', s⟩, member, rfl⟩
    exact ⟨s, member⟩
  · rintro ⟨s, member⟩
    exact ⟨(k, s), member, rfl⟩

theorem Grew.refl (region : κ → Prop) (d : Discovery κ) : Grew region d d :=
  ⟨⟨[], (List.append_nil _).symm, rfl, fun _ member => absurd member List.not_mem_nil⟩, rfl⟩

theorem Grew.trans (first : Grew region d d') (second : Grew region d' d'') : Grew region d d'' := by
  obtain ⟨new, table, todo, inside⟩ := first.grown
  obtain ⟨new', table', todo', inside'⟩ := second.grown
  refine ⟨⟨new ++ new', ?_, ?_, fun entry member => ?_⟩, ?_⟩
  · rw [table', table, List.append_assoc]
  · rw [todo', todo, List.map_append, List.reverse_append, List.append_assoc]
  · rcases List.mem_append.mp member with member | member
    · exact inside entry member
    · exact inside' entry member
  · rw [second.frame, first.frame]

section

variable (grew : Grew region d d')
include grew

theorem Grew.mem_table (member : (k, s) ∈ d.table) : (k, s) ∈ d'.table := by
  obtain ⟨new, table, -, -⟩ := grew.grown
  rw [table]
  exact List.mem_append_left _ member

theorem Grew.keys_inside (member : k ∈ d'.keys) : k ∈ d.keys ∨ region k := by
  obtain ⟨new, table, -, inside⟩ := grew.grown
  obtain ⟨s, member⟩ := Discovery.mem_keys.mp member
  rw [table] at member
  rcases List.mem_append.mp member with member | member
  · exact .inl (Discovery.mem_keys.mpr ⟨s, member⟩)
  · exact .inr (inside _ member)

theorem Grew.handled (nodup : d'.keys.Nodup) :
    k ∈ d'.keys ∧ k ∉ d'.todo ↔ k ∈ d.keys ∧ k ∉ d.todo := by
  obtain ⟨new, table, todo, -⟩ := grew.grown
  have keys' : d'.keys = d.keys ++ new.map Prod.fst := by
    unfold keys
    rw [table, List.map_append]
  rw [keys'] at nodup
  rw [keys', todo, List.mem_append, List.mem_append, List.mem_reverse, not_or]
  constructor
  · rintro ⟨member | member, outside, other⟩
    · exact ⟨member, other⟩
    · exact absurd member outside
  · rintro ⟨member, other⟩
    exact ⟨.inl member, fun again => (List.nodup_append.mp nodup).2.2 k member k again rfl, other⟩

theorem Grew.length : d'.keys.length + d.todo.length = d.keys.length + d'.todo.length := by
  obtain ⟨new, table, todo, -⟩ := grew.grown
  unfold keys
  rw [table, todo]
  simp only [List.length_map, List.length_append, List.length_reverse]
  omega

end

theorem Explores.init (sound : t₀.Sound) (n : Nfa) (empty : n.states = []) :
    Explores t₀ (fun (_ : κ) _ _ => False) { n, t := t₀, table := [], todo := [] } where
  sound := sound
  keysNodup := List.nodup_nil
  states := empty
  statesNodup := empty ▸ List.nodup_nil
  allocated s := by simp [empty]
  fresh s member := absurd (empty ▸ member) List.not_mem_nil
  arc p x q := by simp
  known impossible := impossible.elim
  todo := ⟨List.nodup_nil, fun _ member => absurd member List.not_mem_nil⟩
  old e live := ⟨live, rfl, rfl, rfl⟩
  chains _ _ := rfl
  labels _ _ := rfl

namespace Explores

section

variable (explores : Explores t₀ links d)
include explores

theorem key_unique (first : (k, p) ∈ d.table) (second : (k, q) ∈ d.table) : p = q := by
  have same := List.inj_on_of_nodup_map explores.keysNodup first second rfl
  exact (Prod.mk.inj same).2

theorem state_unique (first : (k, s) ∈ d.table)
    (second : (k', s) ∈ d.table) : k = k' := by
  have nodup := explores.statesNodup
  rw [explores.states] at nodup
  have same := List.inj_on_of_nodup_map nodup first second rfl
  exact (Prod.mk.inj same).1

theorem mem_states : s ∈ d.n.states ↔ ∃ k, (k, s) ∈ d.table := by
  rw [explores.states, List.mem_map]
  constructor
  · rintro ⟨⟨k, s'⟩, member, rfl⟩
    exact ⟨k, member⟩
  · rintro ⟨k, member⟩
    exact ⟨(k, s), member, rfl⟩

theorem withNfa (n : Nfa) (same : n.states = d.n.states) :
    Explores t₀ links { d with n } where
  sound := explores.sound
  keysNodup := explores.keysNodup
  states := same.trans explores.states
  statesNodup := same ▸ explores.statesNodup
  allocated s := by
    show _ ↔ _ ∨ s ∈ n.states
    rw [same]
    exact explores.allocated s
  fresh s member := explores.fresh s (same ▸ member)
  arc := explores.arc
  known := explores.known
  todo := explores.todo
  old := explores.old
  chains := explores.chains
  labels := explores.labels

theorem withTerms (terms : List BoolNode) :
    Explores t₀ links { d with t := { d.t with terms } } where
  sound :=
    { src := explores.sound.src, dest := explores.sound.dest, srcNodup := explores.sound.srcNodup
      destNodup := explores.sound.destNodup, srcAllocated := explores.sound.srcAllocated
      destAllocated := explores.sound.destAllocated, freeEdges := explores.sound.freeEdges
      freeStates := explores.sound.freeStates, index := explores.sound.index }
  keysNodup := explores.keysNodup
  states := explores.states
  statesNodup := explores.statesNodup
  allocated := explores.allocated
  fresh := explores.fresh
  arc := explores.arc
  known := explores.known
  todo := explores.todo
  old := explores.old
  chains := explores.chains
  labels := explores.labels

/-- A key is taken from the list. -/
theorem pop (rest : List κ) (todo : d.todo = k :: rest) :
    Explores t₀ links { d with todo := rest } where
  sound := explores.sound
  keysNodup := explores.keysNodup
  states := explores.states
  statesNodup := explores.statesNodup
  allocated := explores.allocated
  fresh := explores.fresh
  arc := explores.arc
  known := explores.known
  todo := by
    obtain ⟨nodup, inside⟩ := explores.todo
    rw [todo] at nodup inside
    exact ⟨(List.nodup_cons.mp nodup).2, fun k member => inside k (List.mem_cons_of_mem _ member)⟩
  old := explores.old
  chains := explores.chains
  labels := explores.labels

end

end Explores

theorem addState_label (t : Tables) (n : Nfa) (other : s ≠ (t.addState n).1) :
    (t.addState n).2.2.stateLabel s = t.stateLabel s := by
  obtain ⟨last, free, same⟩ := Tables.newState_eq t
  have other : s ≠ t.newState.1 := other
  show update t.newState.2.stateLabel t.newState.1 0 s = _
  rw [update_of_ne other, same]

theorem addEdge_label (t : Tables) (p q : NfaState) (x : Option BoolNode) :
    (t.addEdge p q x).2.stateLabel = t.stateLabel := by
  obtain ⟨last, free, same⟩ := Tables.newEdge_eq t
  show t.newEdge.2.stateLabel = _
  rw [same]

theorem Explores.find [DecidableEq κ] (explores : Explores t₀ links d) (inside : region k) :
    Explores t₀ links (d.find k).2 ∧ (k, (d.find k).1) ∈ (d.find k).2.table ∧ Grew region d (d.find k).2 := by
  unfold Discovery.find
  cases found : d.table.find? fun entry => entry.1 = k with
  | some entry =>
    have member := List.mem_of_find?_eq_some found
    have same : entry.1 = k := by simpa using List.find?_some found
    obtain ⟨k', s⟩ := entry
    obtain rfl : k' = k := same
    exact ⟨explores, member, .refl region d⟩
  | none =>
    have outside : k ∉ d.keys := by
      intro member
      obtain ⟨s, member⟩ := Discovery.mem_keys.mp member
      have other := List.find?_eq_none.mp found (k, s) member
      simp at other
    have adds := explores.sound.addState d.n
    have labels := fun s other => @addState_label s d.t d.n other
    dsimp only
    generalize d.t.addState d.n = added at adds labels ⊢
    obtain ⟨s, n, t⟩ := added
    dsimp only at adds labels ⊢
    have states : n.states = d.n.states ++ [s] := by rw [adds.nfa]
    have old : ∀ {p}, t₀.Allocated p → d.t.Allocated p := fun used =>
      (explores.allocated _).mpr (.inl used)
    have new : ∀ {p}, p ∈ d.n.states → d.t.Allocated p := fun member =>
      (explores.allocated _).mpr (.inr member)
    refine ⟨?_, List.mem_append_right _ (List.mem_singleton_self _), ⟨[(k, s)], rfl, rfl, ?_⟩, ?_⟩
    · exact
        { sound := adds.sound
          keysNodup := by
            show ((d.table ++ [(k, s)]).map Prod.fst).Nodup
            rw [List.map_append]
            refine explores.keysNodup.append (List.nodup_singleton k) fun a member again => ?_
            have same : a = k := List.mem_singleton.mp again
            exact outside (same ▸ member)
          states := by
            rw [states, explores.states, List.map_append]
            rfl
          statesNodup := by
            rw [states]
            refine explores.statesNodup.append (List.nodup_singleton s) fun a member again => ?_
            exact adds.fresh (List.mem_singleton.mp again ▸ new member)
          allocated := fun p => by
            show t.Allocated p ↔ _
            rw [adds.allocated, explores.allocated, states, List.mem_append, List.mem_singleton, or_assoc]
          fresh := fun p member => by
            rw [states, List.mem_append, List.mem_singleton] at member
            rcases member with member | rfl
            · exact explores.fresh p member
            · exact fun used => adds.fresh (old used)
          arc := fun p x q => by
            show t.Arc p x q ↔ _
            rw [adds.arc, explores.arc]
            refine or_congr Iff.rfl ?_
            constructor
            · rintro ⟨a, c, a', rfl, from', to', linked⟩
              exact ⟨a, c, a', rfl, List.mem_append_left _ from', List.mem_append_left _ to', linked⟩
            rintro ⟨a, c, a', rfl, from', to', linked⟩
            have known := explores.known linked
            have before : ∀ {a r}, a ∈ d.keys → (a, r) ∈ d.table ++ [(k, s)] → (a, r) ∈ d.table := by
              intro a r key member
              refine (List.mem_append.mp member).resolve_right fun last => ?_
              exact outside ((Prod.mk.inj (List.mem_singleton.mp last)).1 ▸ key)
            exact ⟨a, c, a', rfl, before known.1 from', before known.2 to', linked⟩
          known := fun linked => by
            show _ ∈ (d.table ++ [(k, s)]).map Prod.fst ∧ _ ∈ (d.table ++ [(k, s)]).map Prod.fst
            rw [List.map_append, List.mem_append, List.mem_append]
            exact ⟨.inl (explores.known linked).1, .inl (explores.known linked).2⟩
          todo := by
            show (k :: d.todo).Nodup ∧ ∀ a ∈ k :: d.todo, a ∈ (d.table ++ [(k, s)]).map Prod.fst
            rw [List.map_append]
            refine ⟨List.nodup_cons.mpr ⟨fun member => outside (explores.todo.2 k member),
              explores.todo.1⟩, fun a member => ?_⟩
            rcases List.mem_cons.mp member with rfl | member
            · exact List.mem_append_right _ (List.mem_singleton_self _)
            · exact List.mem_append_left _ (explores.todo.2 a member)
          old := fun e live => by
            obtain ⟨live', from', to', expr⟩ := explores.old e live
            rw [adds.live, adds.edgeSrc, adds.edgeDest, adds.edgeExpr]
            exact ⟨live', from', to', expr⟩
          chains := fun p used => by
            rw [adds.srcEdges]
            exact explores.chains p used
          labels := fun p used => by
            rw [labels p fun same => adds.fresh (same ▸ old used)]
            exact explores.labels p used }
    · intro entry member
      rw [List.mem_singleton.mp member]
      exact inside
    · show n = { d.n with states := n.states }
      rw [adds.nfa]

theorem Explores.link (explores : Explores t₀ links d) (source : (k, p) ∈ d.table)
    (target : (k', q) ∈ d.table) (b : BoolNode) :
    Explores t₀ (fun a c a' => links a c a' ∨ a = k ∧ c = b ∧ a' = k') (d.link p q b) := by
  have here := explores.mem_states.mpr ⟨k, source⟩
  have there := explores.mem_states.mpr ⟨k', target⟩
  have adds := explores.sound.addEdge ((explores.allocated p).mpr (.inr here))
    ((explores.allocated q).mpr (.inr there)) (some b)
  have labels := addEdge_label d.t p q (some b)
  unfold Discovery.link
  generalize d.t.addEdge p q (some b) = added at adds labels ⊢
  obtain ⟨e, t⟩ := added
  dsimp only at adds labels ⊢
  exact
    { sound := adds.sound
      keysNodup := explores.keysNodup
      states := explores.states
      statesNodup := explores.statesNodup
      allocated := fun s => adds.same.allocated.trans (explores.allocated s)
      fresh := explores.fresh
      arc := fun r x s => by
        show t.Arc r x s ↔ _
        rw [adds.arc, explores.arc, or_assoc]
        refine or_congr Iff.rfl ?_
        constructor
        · rintro (⟨a, c, a', rfl, from', to', linked⟩ | ⟨rfl, rfl, rfl⟩)
          · exact ⟨a, c, a', rfl, from', to', .inl linked⟩
          · exact ⟨k, b, k', rfl, source, target, .inr ⟨rfl, rfl, rfl⟩⟩
        · rintro ⟨a, c, a', rfl, from', to', linked | ⟨rfl, rfl, rfl⟩⟩
          · exact .inl ⟨a, c, a', rfl, from', to', linked⟩
          · exact .inr ⟨explores.key_unique from' source, rfl, explores.key_unique to' target⟩
      known := fun linked => by
        rcases linked with linked | ⟨rfl, -, rfl⟩
        · exact explores.known linked
        · exact ⟨Discovery.mem_keys.mpr ⟨p, source⟩, Discovery.mem_keys.mpr ⟨q, target⟩⟩
      todo := explores.todo
      old := fun e' live => by
        obtain ⟨live', from', to', expr⟩ := explores.old e' live
        have other : e' ≠ e := fun same => adds.fresh (same ▸ live')
        refine ⟨(adds.live e').mpr (.inl live'), ?_, ?_, ?_⟩
        · rw [adds.edgeSrc, update_of_ne other]
          exact from'
        · rw [adds.edgeDest, update_of_ne other]
          exact to'
        · rw [adds.edgeExpr, update_of_ne other]
          exact expr
      chains := fun s used => by
        have other : s ≠ p := fun same => explores.fresh p here (same ▸ used)
        show t.srcEdges s = _
        rw [adds.srcEdges, update_of_ne other]
        exact explores.chains s used
      labels := fun s used => by
        show t.stateLabel s = _
        rw [labels]
        exact explores.labels s used }

/-- The letters that are read from key to key. -/
def KeyStep (links : κ → BoolNode → κ → Prop) : κ → Option Valuation → κ → Prop :=
  Related Tables.Holds fun k x k' => ∃ b, x = some b ∧ links k b k'

theorem KeyStep.loud (k k' : κ) : ¬KeyStep links k none k' := by
  rintro ⟨b, impossible, -⟩
  cases impossible

theorem KeyStep.iff {letter : Valuation} :
    KeyStep links k (some letter) k' ↔ ∃ b, links k b k' ∧ Tables.Holds b letter := by
  constructor
  · rintro ⟨b, ⟨c, same, linked⟩, holds⟩
    cases same
    exact ⟨b, linked, holds⟩
  · rintro ⟨b, linked, holds⟩
    exact ⟨b, ⟨b, rfl, linked⟩, holds⟩

namespace Explores

section

variable (explores : Explores t₀ links d)
include explores

theorem step_iff (sound : t₀.Sound) (source : (k, p) ∈ d.table)
    {o : Option Valuation} : d.t.Step p o q ↔ ∃ k', (k', q) ∈ d.table ∧ KeyStep links k o k' := by
  have arcs : ∀ x, d.t.Arc p x q ↔ ∃ k', (k', q) ∈ d.table ∧ ∃ b, x = some b ∧ links k b k' := by
    intro x
    rw [explores.arc]
    constructor
    · rintro (arc | ⟨a, b, k', rfl, from', to', linked⟩)
      · exact absurd (sound.arc_allocated arc).1 (explores.fresh p (explores.mem_states.mpr ⟨k, source⟩))
      · obtain rfl := explores.state_unique source from'
        exact ⟨k', to', b, rfl, linked⟩
    · rintro ⟨k', to', b, rfl, linked⟩
      exact .inr ⟨k, b, k', rfl, source, to', linked⟩
  cases o with
  | none => exact arcs none
  | some letter =>
    constructor
    · rintro ⟨b, arc, holds⟩
      obtain ⟨k', to', linked⟩ := (arcs _).mp arc
      exact ⟨k', to', b, linked, holds⟩
    · rintro ⟨k', to', b, linked, holds⟩
      exact ⟨b, (arcs _).mpr ⟨k', to', linked⟩, holds⟩

theorem path_iff (sound : t₀.Sound) (source : (k, p) ∈ d.table) :
    Path d.t.Step p w q ↔ ∃ k', (k', q) ∈ d.table ∧ Path (KeyStep links) k w k' := by
  constructor
  · intro path
    induction path generalizing k with
    | nil p => exact ⟨k, source, .nil k⟩
    | silent first _ ih =>
      obtain ⟨k₁, member, move⟩ := (explores.step_iff sound source).mp first
      exact absurd move (KeyStep.loud _ _)
    | letter first _ ih =>
      obtain ⟨k₁, member, move⟩ := (explores.step_iff sound source).mp first
      obtain ⟨k', target, path⟩ := ih member
      exact ⟨k', target, .letter move path⟩
  · rintro ⟨k', target, path⟩
    induction path generalizing p with
    | nil k =>
      rw [explores.key_unique source target]
      exact .nil q
    | silent first _ _ => exact absurd first (KeyStep.loud _ _)
    | @letter k k₁ k' letter w first rest ih =>
      obtain ⟨b, linked, -⟩ := KeyStep.iff.mp first
      obtain ⟨s, member⟩ := Discovery.mem_keys.mp (explores.known linked).2
      exact .letter ((explores.step_iff sound source).mpr ⟨k₁, member, first⟩) (ih member target)

/-- The automaton has its states for itself. -/
theorem operand (sound : t₀.Sound) (loud : t₀.Loud)
    (start : d.n.start ∈ d.n.states) (final : d.n.final ∈ d.n.states) : d.t.Operand d.n := by
  refine ⟨explores.sound, fun p q arc => ?_, ?_⟩
  · rcases (explores.arc p none q).mp arc with arc | ⟨k, b, k', impossible, -⟩
    · exact loud p q arc
    · cases impossible
  refine
    { nodup := explores.statesNodup, used := fun s inside => (explores.allocated s).mpr (.inr inside)
      closed := ?_, start, final }
  intro p x q arc
  rcases (explores.arc p x q).mp arc with arc | ⟨k, b, k', -, from', to', -⟩
  · obtain ⟨usedP, usedQ⟩ := sound.arc_allocated arc
    exact ⟨fun inside => absurd usedP (explores.fresh p inside), fun inside => absurd usedQ (explores.fresh q inside)⟩
  · exact ⟨fun _ => explores.mem_states.mpr ⟨k', to'⟩, fun _ => explores.mem_states.mpr ⟨k, from'⟩⟩

/-- What was there before stays. -/
theorem extension (sound : t₀.Sound) : Tables.Extends t₀ d.t := by
  have known : ∀ {e}, d.t.Live e → t₀.Allocated (d.t.edgeSrc e) → t₀.Live e := by
    intro e live used
    have member := explores.sound.mem_src live
    rw [explores.chains _ used] at member
    exact (sound.src.mp member).1
  refine ⟨fun s used => (explores.allocated s).mpr (.inl used), explores.old, fun e live => ?_⟩
  by_cases here : t₀.Allocated (d.t.edgeSrc e)
  · exact .inl (known live here)
  · rcases (explores.arc _ _ _).mp ⟨e, live, rfl, rfl, rfl⟩ with arc | ⟨k, b, k', -, -, to', -⟩
    · exact absurd (sound.arc_allocated arc).1 here
    · exact .inr ⟨here, explores.fresh _ (explores.mem_states.mpr ⟨k', to'⟩)⟩

end

end Explores

/-- What holds of a discovery whose edges read the letters of MOVE from key to key. -/
def Explored (t₀ : Tables) (move : κ → Valuation → κ → Prop) (d : Discovery κ) : Prop :=
  ∃ links, Explores t₀ links d ∧
    ∀ k letter k', (∃ b, links k b k' ∧ Tables.Holds b letter) ↔ move k letter k'

/-- The moves as steps, none of which is silent. -/
def MoveStep (move : κ → Valuation → κ → Prop) (k : κ) (o : Option Valuation) (k' : κ) : Prop :=
  ∃ letter, o = some letter ∧ move k letter k'

variable {move move' : κ → Valuation → κ → Prop} {letter : Valuation}

theorem MoveStep.loud (k k' : κ) : ¬MoveStep move k none k' := by
  rintro ⟨letter, impossible, -⟩
  cases impossible

theorem MoveStep.iff : MoveStep move k (some letter) k' ↔ move k letter k' := by
  constructor
  · rintro ⟨other, same, moved⟩
    cases same
    exact moved
  · exact fun moved => ⟨letter, rfl, moved⟩

namespace Explored

theorem init (sound : t₀.Sound) (n : Nfa) (empty : n.states = []) :
    Explored t₀ (fun (_ : κ) _ _ => False) { n, t := t₀, table := [], todo := [] } := by
  refine ⟨_, Explores.init sound n empty, fun k letter k' => ?_⟩
  simp

section

variable (explored : Explored t₀ move d)
include explored

theorem congr (same : ∀ k a k', move' k a k' ↔ move k a k') : Explored t₀ move' d := by
  obtain ⟨links, explores, reads⟩ := explored
  exact ⟨links, explores, fun k a k' => (reads k a k').trans (same k a k').symm⟩

theorem withNfa (n : Nfa) (same : n.states = d.n.states) :
    Explored t₀ move { d with n } := by
  obtain ⟨links, explores, reads⟩ := explored
  exact ⟨links, explores.withNfa n same, reads⟩

theorem withTerms (terms : List BoolNode) :
    Explored t₀ move { d with t := { d.t with terms } } := by
  obtain ⟨links, explores, reads⟩ := explored
  exact ⟨links, explores.withTerms terms, reads⟩

theorem pop (rest : List κ) (todo : d.todo = k :: rest) :
    Explored t₀ move { d with todo := rest } := by
  obtain ⟨links, explores, reads⟩ := explored
  exact ⟨links, explores.pop rest todo, reads⟩

end

theorem find [DecidableEq κ] (explored : Explored t₀ move d) (inside : region k) :
    Explored t₀ move (d.find k).2 ∧ (k, (d.find k).1) ∈ (d.find k).2.table ∧ Grew region d (d.find k).2 := by
  obtain ⟨links, explores, reads⟩ := explored
  obtain ⟨explores', member, grew⟩ := explores.find inside
  exact ⟨⟨links, explores', reads⟩, member, grew⟩

section

variable (explored : Explored t₀ move d)
include explored

theorem link (source : (k, p) ∈ d.table) (target : (k', q) ∈ d.table) (b : BoolNode) :
    Explored t₀ (fun a letter a' => move a letter a' ∨ a = k ∧ Tables.Holds b letter ∧ a' = k') (d.link p q b) := by
  obtain ⟨links, explores, reads⟩ := explored
  refine ⟨_, explores.link source target b, fun a letter a' => ?_⟩
  show _ ↔ move a letter a' ∨ _
  rw [← reads]
  constructor
  · rintro ⟨c, linked | ⟨rfl, rfl, rfl⟩, holds⟩
    · exact .inl ⟨c, linked, holds⟩
    · exact .inr ⟨rfl, holds, rfl⟩
  · rintro (⟨c, linked, holds⟩ | ⟨rfl, holds, rfl⟩)
    · exact ⟨c, .inl linked, holds⟩
    · exact ⟨b, .inr ⟨rfl, rfl, rfl⟩, holds⟩

theorem known (moved : move k letter k') : k ∈ d.keys ∧ k' ∈ d.keys := by
  obtain ⟨links, explores, reads⟩ := explored
  obtain ⟨b, linked, -⟩ := (reads _ _ _).mpr moved
  exact explores.known linked

theorem state_unique (first : (k, s) ∈ d.table)
    (second : (k', s) ∈ d.table) : k = k' := by
  obtain ⟨links, explores, -⟩ := explored
  exact explores.state_unique first second

theorem mem_states : s ∈ d.n.states ↔ ∃ k, (k, s) ∈ d.table := by
  obtain ⟨links, explores, -⟩ := explored
  exact explores.mem_states

theorem keysNodup : d.keys.Nodup := by
  obtain ⟨links, explores, -⟩ := explored
  exact explores.keysNodup

theorem fresh : ∀ s ∈ d.n.states, ¬t₀.Allocated s := by
  obtain ⟨links, explores, -⟩ := explored
  exact explores.fresh

theorem old : ∀ e, t₀.Live e → d.t.Live e ∧
    d.t.edgeSrc e = t₀.edgeSrc e ∧ d.t.edgeDest e = t₀.edgeDest e ∧ d.t.edgeExpr e = t₀.edgeExpr e := by
  obtain ⟨links, explores, -⟩ := explored
  exact explores.old

theorem chains : ∀ s, t₀.Allocated s → d.t.srcEdges s = t₀.srcEdges s := by
  obtain ⟨links, explores, -⟩ := explored
  exact explores.chains

theorem labels : ∀ s, t₀.Allocated s → d.t.stateLabel s = t₀.stateLabel s := by
  obtain ⟨links, explores, -⟩ := explored
  exact explores.labels

theorem operand (sound : t₀.Sound) (loud : t₀.Loud)
    (start : d.n.start ∈ d.n.states) (final : d.n.final ∈ d.n.states) : d.t.Operand d.n := by
  obtain ⟨links, explores, -⟩ := explored
  exact explores.operand sound loud start final

theorem extension (sound : t₀.Sound) : Tables.Extends t₀ d.t := by
  obtain ⟨links, explores, -⟩ := explored
  exact explores.extension sound

theorem path_iff (sound : t₀.Sound) (source : (k, p) ∈ d.table) :
    Path d.t.Step p w q ↔ ∃ k', (k', q) ∈ d.table ∧ Path (MoveStep move) k w k' := by
  obtain ⟨links, explores, reads⟩ := explored
  have steps : ∀ k o k', KeyStep links k o k' ↔ MoveStep move k o k' := by
    intro k o k'
    cases o with
    | none => exact iff_of_false (KeyStep.loud k k') (MoveStep.loud k k')
    | some letter => rw [KeyStep.iff, reads, MoveStep.iff]
  rw [explores.path_iff sound source]
  exact exists_congr fun k' => and_congr_right fun _ => Path.congr steps

end

theorem path_done (explored : Explored t₀ (fun k a k' => k ∈ d.keys ∧ move k a k') d) (inside : k ∈ d.keys) :
    Path (MoveStep fun k a k' => k ∈ d.keys ∧ move k a k') k w k' ↔ Path (MoveStep move) k w k' := by
  refine Path.congr_inside inside ?_ ?_
  · rintro p o q here ⟨letter, -, moved⟩
    exact (explored.known moved).2
  intro p o q here
  constructor
  · rintro ⟨letter, same, -, moved⟩
    exact ⟨letter, same, moved⟩
  · rintro ⟨letter, same, moved⟩
    exact ⟨letter, same, here, moved⟩

end Explored

section Loops

variable {σ α : Type} (view : σ → Discovery κ) (good : σ → Prop) {state : σ} {allowed : PslError → Prop}

theorem Explored.foldlM (region : κ → Prop) (step : σ → α → Outcome σ) (spec : α → κ → Valuation → κ → Prop) (items : List α)
    (each : ∀ a ∈ items, ∀ state' move', good state' → Explored t₀ move' (view state') →
      Grew region (view state) (view state') → Yields allowed (fun state'' => good state'' ∧
          Explored t₀ (fun k letter k' => move' k letter k' ∨ spec a k letter k') (view state'') ∧
            Grew region (view state') (view state'')) (step state' a))
    (before : good state) (explored : Explored t₀ move (view state)) : Yields allowed (fun state' => good state' ∧
      Explored t₀ (fun k letter k' => move k letter k' ∨ ∃ a ∈ items, spec a k letter k') (view state') ∧
        Grew region (view state) (view state')) (items.foldlM step state) := by
  induction items generalizing state move with
  | nil =>
    refine ⟨before, explored.congr fun k letter k' => ?_, .refl _ _⟩
    simp
  | cons a items ih =>
    rw [List.foldlM_cons]
    refine (each a List.mem_cons_self state move before explored (.refl _ _)).bind ?_
    rintro state₁ ⟨good₁, explored₁, grew₁⟩
    refine (ih (fun a' member state' move' good' explored' grew' =>
      each a' (List.mem_cons_of_mem _ member) state' move' good' explored' (grew₁.trans grew'))
      good₁ explored₁).mono ?_
    rintro state' ⟨good', explored', grew'⟩
    refine ⟨good', explored'.congr fun k letter k' => ?_, grew₁.trans grew'⟩
    simp [or_assoc]

/-- The moves of the keys that are handled. -/
def Done (spec : κ → Valuation → κ → Prop) (d : Discovery κ) (k : κ) (letter : Valuation) (k' : κ) : Prop :=
  (k ∈ d.keys ∧ k ∉ d.todo) ∧ spec k letter k'

/-- What a loop that handles one key after the other returns. -/
structure Handled (t₀ : Tables) (spec : κ → Valuation → κ → Prop) (region : List κ) (d d' : Discovery κ) :
    Prop where
  explored : Explored t₀ (fun k letter k' => k ∈ d'.keys ∧ spec k letter k') d'
  table : ∀ k s, (k, s) ∈ d.table → (k, s) ∈ d'.table
  inside : ∀ k ∈ d'.keys, k ∈ region
  frame : d'.n = { d.n with states := d'.n.states }

/-- The loop ends when the keys are in a region with no more keys than fuel is left, and every key has its
edges then. -/
theorem Explored.run (run : Nat → σ → Outcome σ) (step : σ → Outcome σ) (region : List κ)
    (spec : κ → Valuation → κ → Prop) {fuel : Nat}
    (stop : ∀ fuel state, (view state).todo = [] → run fuel state = .ok state)
    (next : ∀ fuel state, (view state).todo ≠ [] → run (fuel + 1) state = step state >>= run fuel)
    (handles : ∀ state' k rest, good state' → (view state').todo = k :: rest →
      Explored t₀ (Done spec (view state')) (view state') → k ∈ region → Yields allowed (fun state'' => good state'' ∧
          Explored t₀ (fun a letter a' => Done spec (view state') a letter a' ∨ a = k ∧ spec a letter a')
              (view state'') ∧ Grew (· ∈ region) { view state' with todo := rest } (view state'')) (step state'))
    (before : good state) (explored : Explored t₀ (Done spec (view state)) (view state))
    (inside : ∀ k ∈ (view state).keys, k ∈ region)
    (enough : region.length + (view state).todo.length ≤ fuel + (view state).keys.length) :
    Yields allowed (fun state' => good state' ∧ Handled t₀ spec region (view state) (view state'))
      (run fuel state) := by
  have finished : ∀ {state}, good state → Explored t₀ (Done spec (view state)) (view state) →
      (∀ k ∈ (view state).keys, k ∈ region) → (view state).todo = [] →
        good state ∧ Handled t₀ spec region (view state) (view state) := by
    intro state before explored inside empty
    refine ⟨before, explored.congr fun k letter k' => ?_, fun _ _ member => member, inside, rfl⟩
    simp [Done, empty]
  induction fuel generalizing state with
  | zero =>
    obtain ⟨links, explores, -⟩ := id explored
    have bound : (view state).keys.length ≤ region.length := (explores.keysNodup.subperm inside).length_le
    have empty : (view state).todo = [] := List.eq_nil_of_length_eq_zero (by omega)
    rw [stop 0 state empty]
    exact finished before explored inside empty
  | succ fuel ih =>
    cases todo : (view state).todo with
    | nil =>
      rw [stop _ state todo]
      exact finished before explored inside todo
    | cons k rest =>
      obtain ⟨links, explores, -⟩ := id explored
      have known : k ∈ (view state).keys := explores.todo.2 k (todo ▸ List.mem_cons_self)
      have nodup := explores.todo.1
      rw [todo] at nodup
      rw [next fuel state (by simp [todo])]
      refine (handles state k rest before todo explored (inside k known)).bind ?_
      rintro state₁ ⟨good₁, explored₁, grew⟩
      obtain ⟨links₁, explores₁, -⟩ := id explored₁
      have handled : ∀ a, a ∈ (view state₁).keys ∧ a ∉ (view state₁).todo ↔
          (a ∈ (view state).keys ∧ a ∉ (view state).todo) ∨ a = k := by
        intro a
        have same : a ∈ (view state₁).keys ∧ a ∉ (view state₁).todo ↔
            a ∈ (view state).keys ∧ a ∉ rest := grew.handled explores₁.keysNodup
        rw [same, todo, List.mem_cons, not_or]
        constructor
        · rintro ⟨member, outside⟩
          by_cases here : a = k
          · exact .inr here
          · exact .inl ⟨member, here, outside⟩
        · rintro (⟨member, -, outside⟩ | rfl)
          · exact ⟨member, outside⟩
          · exact ⟨known, (List.nodup_cons.mp nodup).1⟩
      have inside₁ : ∀ a ∈ (view state₁).keys, a ∈ region := by
        intro a member
        rcases grew.keys_inside member with member | member
        · exact inside a member
        · exact member
      have length : (view state₁).keys.length + rest.length =
          (view state).keys.length + (view state₁).todo.length := grew.length
      have enough₁ : region.length + (view state₁).todo.length ≤ fuel + (view state₁).keys.length := by
        rw [todo, List.length_cons] at enough
        omega
      have done₁ : Explored t₀ (Done spec (view state₁)) (view state₁) := by
        refine explored₁.congr fun a letter a' => ?_
        unfold Done
        rw [handled]
        tauto
      refine (ih good₁ done₁ inside₁ enough₁).mono ?_
      rintro state' ⟨good', done⟩
      refine ⟨good', done.explored, fun a s member => done.table a s (grew.mem_table member), done.inside, ?_⟩
      rw [done.frame, grew.frame]

end Loops

end Discovery

end Ghdl.Psl
