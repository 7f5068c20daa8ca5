import Ghdl.Psl.EpsilonLanguage

/-!
# Thompson construction

`Build_Or` adds a start state and a final state with four epsilon edges. Before it removes them, the new
automaton reads the words of both operands.
-/

namespace Ghdl.Psl

open Automata Function

namespace Tables

variable {t t₀ t' : Tables} {l r n n' : Nfa} {p q s d start final : NfaState}
  {e eSL eSR eLF eRF : NfaEdge} {x : Option BoolNode} {bs : List BoolNode}

/-- An edge leaves the state. -/
def Leaves (t : Tables) (p : NfaState) : Prop := ∃ b q, t.Arc p (some b) q

/-- An edge enters the state. -/
def Enters (t : Tables) (q : NfaState) : Prop := ∃ p b, t.Arc p (some b) q

theorem Sound.srcEdges_nil (sound : t.Sound) (loud : t.Loud) : t.srcEdges p = [] ↔ ¬t.Leaves p := by
  rw [sound.src_nil_iff]
  constructor
  · rintro none ⟨b, q, arc⟩
    exact none _ _ arc
  · intro none x q arc
    cases x with
    | none => exact loud p q arc
    | some b => exact none ⟨b, q, arc⟩

theorem Sound.destEdges_nil (sound : t.Sound) (loud : t.Loud) : t.destEdges q = [] ↔ ¬t.Enters q := by
  rw [sound.dest_nil_iff]
  constructor
  · rintro none ⟨p, b, arc⟩
    exact none _ _ arc
  · intro none p x arc
    cases x with
    | none => exact loud p q arc
    | some b => exact none ⟨p, b, arc⟩

/-- Two automata whose states are apart, in tables without epsilon edges. -/
structure Operands (t : Tables) (l r : Nfa) : Prop where
  sound : t.Sound
  loud : t.Loud
  left : t.Owned l
  right : t.Owned r
  apart : ∀ s ∈ l.states, s ∉ r.states

/-- What is there before the first epsilon edge is removed. -/
structure Thompson (t : Tables) (l r : Nfa) (start final : NfaState) (eSL eSR eLF eRF : NfaEdge)
    (n : Nfa) (t₀ : Tables) : Prop where
  sound : t₀.Sound
  startFresh : ¬t.Allocated start
  finalFresh : ¬t.Allocated final
  different : start ≠ final
  nfa : n = { states := l.states ++ r.states ++ [start] ++ [final], start, final
              epsilon := l.epsilon || r.epsilon }
  pending : Pending t₀ [(eSL, start, l.start), (eSR, start, r.start), (eLF, l.final, final),
    (eRF, r.final, final)]
  arc : ∀ p b q, t₀.Arc p (some b) q ↔ t.Arc p (some b) q

theorem AddsEdge.allocated (adds : AddsEdge t s d x e t') : t'.Allocated p ↔ t.Allocated p :=
  adds.same.allocated

theorem AddsEdge.pending {ps : List (NfaEdge × NfaState × NfaState)} (adds : AddsEdge t s d none e t')
    (pending : Pending t ps) : Pending t' (ps ++ [(e, s, d)]) where
  here e' s' d' member := by
    rcases List.mem_append.mp member with member | member
    · obtain ⟨live, null, from', to'⟩ := pending.here e' s' d' member
      have old : e' ≠ e := fun same => adds.fresh (same ▸ live)
      refine ⟨(adds.live e').mpr (.inl live), ?_, ?_, ?_⟩
      · rw [adds.edgeExpr, update_of_ne old, null]
      · rw [adds.edgeSrc, update_of_ne old, from']
      · rw [adds.edgeDest, update_of_ne old, to']
    · obtain ⟨rfl, rfl, rfl⟩ : e' = e ∧ s' = s ∧ d' = d := by simpa using member
      refine ⟨(adds.live e').mpr (.inr rfl), ?_, ?_, ?_⟩
      · rw [adds.edgeExpr, update_self]
      · rw [adds.edgeSrc, update_self]
      · rw [adds.edgeDest, update_self]
  only e' live null := by
    rw [List.map_append, List.mem_append]
    rcases (adds.live e').mp live with live | rfl
    · have old : e' ≠ e := fun same => adds.fresh (same ▸ live)
      rw [adds.edgeExpr, update_of_ne old] at null
      exact .inl (pending.only e' live null)
    · exact .inr (by simp)
  nodup := by
    rw [List.map_append]
    refine pending.nodup.append (List.nodup_singleton e) fun e' member member' => ?_
    obtain ⟨⟨e'', s', d'⟩, inside, rfl⟩ := List.mem_map.mp member
    have same : e'' = e := by simpa using member'
    exact adds.fresh (same ▸ (pending.here _ _ _ inside).1)

theorem AddsState.pending {ps : List (NfaEdge × NfaState × NfaState)} (adds : AddsState t n s n' t')
    (pending : Pending t ps) : Pending t' ps where
  here e' s' d' member := by
    rw [adds.edgeSrc, adds.edgeDest, adds.edgeExpr, adds.live]
    exact pending.here e' s' d' member
  only e' live null := by
    rw [adds.edgeExpr] at null
    exact pending.only e' ((adds.live e').mp live) null
  nodup := pending.nodup

theorem Loud.pending (loud : t.Loud) : Pending t [] where
  here _ _ _ member := absurd member List.not_mem_nil
  only e live null := absurd ⟨e, live, rfl, null, rfl⟩ (loud _ _)
  nodup := List.nodup_nil

theorem AddsEdge.arc_some {b : BoolNode} (adds : AddsEdge t s d none e t') :
    t'.Arc p (some b) q ↔ t.Arc p (some b) q := by
  rw [adds.arc]
  simp

theorem Operands.thompson (operands : Operands t l r) :
    ∃ start final eSL eSR eLF eRF n t₀, t.thompson l r = ((eSL, eSR, eLF, eRF), n, t₀) ∧
      Thompson t l r start final eSL eSR eLF eRF n t₀ := by
  have used := operands.left.used
  have used' := operands.right.used
  unfold Tables.thompson
  have first := operands.sound.addState (mergeNfa l r)
  dsimp only
  generalize t.addState (mergeNfa l r) = added at first ⊢
  obtain ⟨start, n₁, t₁⟩ := added
  dsimp only at first ⊢
  have startUsed : t₁.Allocated start := (first.allocated _).mpr (.inr rfl)
  have old : ∀ {p}, t.Allocated p → t₁.Allocated p := fun used => (first.allocated _).mpr (.inl used)
  have addSL := first.sound.addEdge startUsed (old (used _ operands.left.start)) none
  generalize t₁.addEdge start l.start none = added at addSL ⊢
  obtain ⟨eSL, t₂⟩ := added
  dsimp only at addSL ⊢
  have addSR := addSL.sound.addEdge (addSL.allocated.mpr startUsed)
    (addSL.allocated.mpr (old (used' _ operands.right.start))) none
  generalize t₂.addEdge start r.start none = added at addSR ⊢
  obtain ⟨eSR, t₃⟩ := added
  dsimp only at addSR ⊢
  have same : ∀ {p}, t₃.Allocated p ↔ t₁.Allocated p := addSR.allocated.trans addSL.allocated
  have second := addSR.sound.addState { n₁ with start := start }
  generalize t₃.addState _ = added at second ⊢
  obtain ⟨final, n₂, t₄⟩ := added
  dsimp only at second ⊢
  have finalUsed : t₄.Allocated final := (second.allocated _).mpr (.inr rfl)
  have old' : ∀ {p}, t.Allocated p → t₄.Allocated p := fun used =>
    (second.allocated _).mpr (.inl (same.mpr (old used)))
  have addLF := second.sound.addEdge (old' (used _ operands.left.final)) finalUsed none
  generalize t₄.addEdge l.final final none = added at addLF ⊢
  obtain ⟨eLF, t₅⟩ := added
  dsimp only at addLF ⊢
  have addRF := addLF.sound.addEdge (addLF.allocated.mpr (old' (used' _ operands.right.final)))
    (addLF.allocated.mpr finalUsed) none
  generalize t₅.addEdge r.final final none = added at addRF ⊢
  obtain ⟨eRF, t₀⟩ := added
  dsimp only at addRF ⊢
  refine ⟨start, final, eSL, eSR, eLF, eRF, _, t₀, rfl, ?_⟩
  refine
    { sound := addRF.sound, startFresh := first.fresh, finalFresh := ?_, different := ?_, nfa := ?_
      pending := ?_, arc := fun p b q => ?_ }
  · exact fun used => second.fresh (same.mpr (old used))
  · exact fun equal => second.fresh (same.mpr (equal ▸ startUsed))
  · rw [second.nfa, first.nfa]
    rfl
  · exact addRF.pending (addLF.pending (second.pending (addSR.pending (addSL.pending
      (first.pending operands.loud.pending)))))
  · exact addRF.arc_some.trans (addLF.arc_some.trans (second.arc.trans
      (addSR.arc_some.trans (addSL.arc_some.trans first.arc))))

namespace Thompson

variable (operands : Operands t l r) (built : Thompson t l r start final eSL eSR eLF eRF n t₀)

include built in
theorem epsilon_arc :
    t₀.Arc p none q ↔ p = start ∧ (q = l.start ∨ q = r.start) ∨ (p = l.final ∨ p = r.final) ∧ q = final := by
  rw [built.pending.arc]
  simp only [List.map_cons, List.map_nil, List.mem_cons, Prod.mk.injEq, List.not_mem_nil, or_false]
  tauto

include operands built

theorem start_not_left (inside : p ∈ l.states) : p ≠ start := fun same =>
  built.startFresh (same ▸ operands.left.used p inside)

theorem start_not_right (inside : p ∈ r.states) : p ≠ start := fun same =>
  built.startFresh (same ▸ operands.right.used p inside)

theorem final_not_left (inside : p ∈ l.states) : p ≠ final := fun same =>
  built.finalFresh (same ▸ operands.left.used p inside)

theorem final_not_right (inside : p ∈ r.states) : p ≠ final := fun same =>
  built.finalFresh (same ▸ operands.right.used p inside)

theorem final_dead (x : Option BoolNode) (q : NfaState) : ¬t₀.Arc final x q := by
  intro arc
  cases x with
  | some b =>
    exact built.finalFresh (operands.sound.arc_allocated ((built.arc _ _ _).mp arc)).1
  | none =>
    rcases built.epsilon_arc.mp arc with ⟨same, -⟩ | ⟨same | same, -⟩
    · exact built.different same.symm
    · exact built.final_not_left operands operands.left.final same.symm
    · exact built.final_not_right operands operands.right.final same.symm

theorem path_final {m : Nfa} (owned : t.Owned m)
    (leaves : ∀ p ∈ m.states, ∀ q, t₀.Arc p none q → p = m.final ∧ q = final)
    (outside : final ∉ m.states) (path : Path t₀.Arc p bs final) (inside : p ∈ m.states) : Path t.Arc p bs m.final := by
  generalize goal : final = target at path
  induction path with
  | nil p => exact absurd (goal ▸ inside) outside
  | silent first rest ih =>
    obtain ⟨rfl, rfl⟩ := leaves _ inside _ first
    subst goal
    cases rest with
    | nil => exact .nil _
    | silent first _ | letter first _ => exact absurd first (built.final_dead operands _ _)
  | letter first rest ih =>
    have arc := (built.arc _ _ _).mp first
    exact .letter arc (ih ((owned.closed arc).mp inside) goal)

theorem path_iff : Path t₀.Arc start bs final ↔ Path t.Arc l.start bs l.final ∨ Path t.Arc r.start bs r.final := by
  have left : ∀ p ∈ l.states, ∀ q, t₀.Arc p none q → p = l.final ∧ q = final := by
    intro p inside q arc
    rcases built.epsilon_arc.mp arc with ⟨same, -⟩ | ⟨same | same, target⟩
    · exact absurd same (built.start_not_left operands inside)
    · exact ⟨same, target⟩
    · exact absurd (same ▸ operands.right.final) (operands.apart p inside)
  have right : ∀ p ∈ r.states, ∀ q, t₀.Arc p none q → p = r.final ∧ q = final := by
    intro p inside q arc
    rcases built.epsilon_arc.mp arc with ⟨same, -⟩ | ⟨same | same, target⟩
    · exact absurd same (built.start_not_right operands inside)
    · exact absurd inside (operands.apart p (same ▸ operands.left.final))
    · exact ⟨same, target⟩
  have whole : ∀ m : Nfa, t₀.Arc start none m.start → t₀.Arc m.final none final →
      Path t.Arc m.start bs m.final → Path t₀.Arc start bs final := by
    intro m first last path
    have middle : Path t₀.Arc m.start bs m.final := path.mono fun p o q arc => by
      cases o with
      | none => exact absurd arc (operands.loud p q)
      | some b => exact (built.arc p b q).mpr arc
    have ending := middle.trans (.silent last (.nil final))
    rw [List.append_nil] at ending
    exact .silent first ending
  constructor
  · intro path
    cases path with
    | nil => exact absurd rfl built.different
    | @silent _ q _ _ first rest =>
      rcases built.epsilon_arc.mp first with ⟨-, rfl | rfl⟩ | ⟨same | same, -⟩
      · exact .inl (built.path_final operands operands.left left
          (fun inside => built.final_not_left operands inside rfl) rest operands.left.start)
      · exact .inr (built.path_final operands operands.right right
          (fun inside => built.final_not_right operands inside rfl) rest operands.right.start)
      · exact absurd same.symm (built.start_not_left operands operands.left.final)
      · exact absurd same.symm (built.start_not_right operands operands.right.final)
    | letter first rest =>
      have arc := (built.arc _ _ _).mp first
      exact absurd (operands.sound.arc_allocated arc).1 built.startFresh
  · rintro (path | path)
    · exact whole l (built.epsilon_arc.mpr (.inl ⟨rfl, .inl rfl⟩)) (built.epsilon_arc.mpr (.inr ⟨.inl rfl, rfl⟩)) path
    · exact whole r (built.epsilon_arc.mpr (.inl ⟨rfl, .inr rfl⟩)) (built.epsilon_arc.mpr (.inr ⟨.inr rfl, rfl⟩)) path

end Thompson

end Tables

end Ghdl.Psl
