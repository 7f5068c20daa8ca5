import Ghdl.Automata.Words
import Ghdl.Psl.Epsilon

/-!
# Language of an automaton

An automaton reads words of valuations. It accepts a word that leads from the start state to the final
state, and the empty word when its epsilon flag is set.
-/

namespace Ghdl.Psl

open Automata
open scoped Computability

namespace Tables

/-- The expression is true in the letter. -/
def Holds (b : BoolNode) (letter : Valuation) : Prop := b.eval letter = true

/-- A letter is read along an edge whose expression is true. -/
def Step (t : Tables) : NfaState → Option Valuation → NfaState → Prop := Related Holds t.Arc

/-- The automaton accepts the word. -/
def Accepts (t : Tables) (n : Nfa) (w : List Valuation) : Prop :=
  Path t.Step n.start w n.final ∨ w = [] ∧ n.epsilon = true

/-- The words that the automaton accepts. -/
def language (t : Tables) (n : Nfa) : Language Valuation := {w | t.Accepts n w}

/-- The automaton has its states for itself: no edge goes in or out. -/
structure Owned (t : Tables) (n : Nfa) : Prop where
  nodup : n.states.Nodup
  used : ∀ s ∈ n.states, t.Allocated s
  closed : ∀ {p x q}, t.Arc p x q → (p ∈ n.states ↔ q ∈ n.states)
  start : n.start ∈ n.states
  final : n.final ∈ n.states

/-- There is no epsilon edge. -/
def Loud (t : Tables) : Prop := ∀ p q, ¬t.Arc p none q

/-- An automaton that a construction returns: it has its states for itself, in sound tables without epsilon
edges. -/
structure Operand (t : Tables) (n : Nfa) : Prop where
  sound : t.Sound
  loud : t.Loud
  owned : t.Owned n

variable {t t' : Tables} {n n' l r : Nfa} {p q s d : NfaState} {w : List Valuation}
  {bs : List BoolNode} {x : Option BoolNode}

theorem path_step_iff : Path t.Step p w q ↔ ∃ bs, Path t.Arc p bs q ∧ List.Forall₂ Holds bs w :=
  path_related

theorem path_step_congr {p' q' : NfaState}
    (same : ∀ bs, bs.length = w.length → (Path t'.Arc p' bs q' ↔ Path t.Arc p bs q)) :
    Path t'.Step p' w q' ↔ Path t.Step p w q := by
  rw [path_step_iff, path_step_iff]
  constructor
  · rintro ⟨bs, path, letters⟩
    exact ⟨bs, (same bs letters.length_eq).mp path, letters⟩
  · rintro ⟨bs, path, letters⟩
    exact ⟨bs, (same bs letters.length_eq).mpr path, letters⟩

theorem Loud.step (loud : t.Loud) (p q : NfaState) : ¬t.Step p none q := loud p q

theorem Loud.path_nil (loud : t.Loud) : Path t.Step p [] q ↔ p = q := Path.nil_iff loud.step

theorem Loud.accepts_nil (loud : t.Loud) : t.Accepts n [] ↔ n.start = n.final ∨ n.epsilon = true := by
  unfold Accepts
  rw [loud.path_nil]
  simp

theorem accepts_iff_path (nonempty : w ≠ []) : t.Accepts n w ↔ Path t.Step n.start w n.final := by
  unfold Accepts
  simp [nonempty]

theorem mem_language : w ∈ t.language n ↔ t.Accepts n w := Iff.rfl

theorem language_eq : t.language n = words t.Step n.start n.final + if n.epsilon then 1 else 0 := by
  ext w
  rw [mem_language, Language.mem_add, mem_words]
  unfold Accepts
  cases n.epsilon with
  | false => simp
  | true => simp

theorem kstar_language : (t.language n)∗ = (words t.Step n.start n.final)∗ := by
  rw [language_eq]
  cases n.epsilon with
  | false => simp
  | true =>
    apply le_antisymm
    · have below : words t.Step n.start n.final + 1 ≤ (words t.Step n.start n.final)∗ := add_le le_kstar one_le_kstar
      exact (kstar_mono below).trans_eq (kstar_idem _)
    · exact kstar_mono (by simp)

theorem Owned.step_mem {o : Option Valuation} (owned : t.Owned n) (inside : p ∈ n.states)
    (move : t.Step p o q) : q ∈ n.states := by
  cases o with
  | none => exact (owned.closed move).mp inside
  | some letter =>
    obtain ⟨b, arc, -⟩ := move
    exact (owned.closed arc).mp inside

/-- The words of an automaton depend on the edges from its states only. -/
theorem Owned.path_congr (owned : t.Owned n) (arcs : ∀ s ∈ n.states, ∀ x q, t'.Arc s x q ↔ t.Arc s x q)
    (inside : p ∈ n.states) : Path t'.Step p w q ↔ Path t.Step p w q := by
  refine (Path.congr_inside inside (fun _ _ _ here move => owned.step_mem here move) fun p o q here => ?_).symm
  cases o with
  | none => exact (arcs p here none q).symm
  | some letter => exact exists_congr fun b => and_congr_left fun _ => (arcs p here _ q).symm

/-- The automaton is `[*0]`: the start state is the final state, and no edge leaves it. -/
def IsEmptyWord (t : Tables) (n : Nfa) : Prop := n.start = n.final ∧ t.srcEdges n.start = []

/-- From a state that no edge leaves only the empty word is read. -/
theorem path_dead (alone : ∀ x q, ¬t.Arc p x q) (path : Path t.Step p w q) : w = [] ∧ p = q := by
  refine path.of_dead fun o r move => ?_
  cases o with
  | none => exact alone _ _ move
  | some letter =>
    obtain ⟨b, arc, -⟩ := move
    exact alone _ _ arc

/-- An automaton whose start state is its final state, and no edge leaves it, accepts the empty word
only. -/
theorem IsEmptyWord.accepts (sound : t.Sound) (empty : t.IsEmptyWord n) : t.Accepts n w ↔ w = [] := by
  obtain ⟨same, none⟩ := empty
  have alone := sound.src_nil_iff.mp none
  constructor
  · rintro (path | ⟨rfl, -⟩)
    · exact (path_dead alone path).1
    · rfl
  · rintro rfl
    refine .inl ?_
    rw [← same]
    exact .nil _

theorem IsEmptyWord.language (sound : t.Sound) (empty : t.IsEmptyWord n) : t.language n = 1 := by
  ext w
  rw [mem_language, empty.accepts sound, Language.mem_one]

end Tables

end Ghdl.Psl
