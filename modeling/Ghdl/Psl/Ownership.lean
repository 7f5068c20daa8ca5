import Ghdl.Psl.Sere
import Ghdl.Psl.Thompson

/-!
# Automata that are built

Every construction takes the states of its operands and new ones for its result. The other states and their
edges stay as they are, so that automata that are built one after the other have their states for
themselves.
-/

namespace Ghdl.Psl

open Automata
open scoped Computability

theorem pair_origin {o o' : Option Nat} {a b k : Nat}
    (same : 8 * Nat.pair (o.elim 0 Nat.succ) a + k = 8 * Nat.pair (o'.elim 0 Nat.succ) b + k) : o = o' ∧ a = b := by
  have pairs := Nat.eq_of_mul_eq_mul_left (by decide : 0 < 8) (Nat.add_right_cancel same)
  obtain ⟨origins, operands⟩ := Nat.pair_eq_pair.mp pairs
  refine ⟨?_, operands⟩
  cases o <;> cases o' <;> simp_all

theorem pair_operands {o o' : Option Nat} {a b a' b' k : Nat}
    (same : 8 * Nat.pair (o.elim 0 Nat.succ) (Nat.pair a b) + k =
      8 * Nat.pair (o'.elim 0 Nat.succ) (Nat.pair a' b') + k) : o = o' ∧ a = a' ∧ b = b' := by
  obtain ⟨origins, operands⟩ := pair_origin same
  exact ⟨origins, Nat.pair_eq_pair.mp operands⟩

theorem BoolNode.number_injective : Function.Injective BoolNode.number := by
  intro a
  induction a with
  | notBool origin boolean ih =>
    intro b same
    cases b <;> simp only [number] at same
    case notBool =>
      obtain ⟨origins, operands⟩ := pair_origin same
      rw [origins, ih operands]
    all_goals omega
  | andBool origin left right ihl ihr | orBool origin left right ihl ihr | impBool origin left right ihl ihr =>
    intro b same
    cases b <;> simp only [number] at same <;> try omega
    obtain ⟨origins, lefts, rights⟩ := pair_operands same
    rw [origins, ihl lefts, ihr rights]
  | hdlExpr expr =>
    intro b same
    cases b <;> simp only [number] at same
    case hdlExpr => rw [Nat.eq_of_mul_eq_mul_left (by decide) same]
    all_goals omega
  | eos | trueNode | falseNode =>
    intro b same
    cases b <;> simp only [number] at same <;> first | rfl | omega

namespace Tables

variable {t t' t'' : Tables} {n n' m l r : Nfa} {p q s d : NfaState} {e : NfaEdge} {x : Option BoolNode}
  {olds : List NfaState} {nodeIndex : BoolNode → Nat}

/-- The state is in use and has the edges it had. -/
structure Untouched (t t' : Tables) (s : NfaState) : Prop where
  allocated : t'.Allocated s
  leaves : ∀ x q, t'.Arc s x q ↔ t.Arc s x q
  enters : ∀ p x, t'.Arc p x s ↔ t.Arc p x s

/-- The edges that were there stay, and the new ones join new states. -/
structure Extends (t t' : Tables) : Prop where
  allocated : ∀ s, t.Allocated s → t'.Allocated s
  old : ∀ e, t.Live e → t'.Live e ∧ t'.edgeSrc e = t.edgeSrc e ∧ t'.edgeDest e = t.edgeDest e ∧
    t'.edgeExpr e = t.edgeExpr e
  new : ∀ e, t'.Live e → t.Live e ∨ ¬t.Allocated (t'.edgeSrc e) ∧ ¬t.Allocated (t'.edgeDest e)

theorem Extends.untouched (extension : Extends t t') (used : t.Allocated s) : Untouched t t' s := by
  have forth : ∀ {p x q}, t.Arc p x q → t'.Arc p x q := by
    rintro p x q ⟨e, live, rfl, rfl, rfl⟩
    obtain ⟨live', from', to', expr⟩ := extension.old e live
    exact ⟨e, live', from', expr, to'⟩
  have back : ∀ {p x q}, t.Allocated p ∨ t.Allocated q → t'.Arc p x q → t.Arc p x q := by
    rintro p x q here ⟨e, live', rfl, rfl, rfl⟩
    rcases extension.new e live' with live | ⟨otherSrc, otherDest⟩
    · obtain ⟨-, from', to', expr⟩ := extension.old e live
      exact ⟨e, live, from'.symm, expr.symm, to'.symm⟩
    · rcases here with here | here
      · exact absurd here otherSrc
      · exact absurd here otherDest
  exact ⟨extension.allocated s used, fun x q => ⟨back (.inl used), forth⟩, fun p x => ⟨back (.inr used), forth⟩⟩

/-- An automaton is built from the states OLDS and new states. -/
structure Builds (t : Tables) (olds : List NfaState) (n : Nfa) (t' : Tables) : Prop where
  operand : t'.Operand n
  kept : ∀ s, t.Allocated s → s ∉ olds → Untouched t t' s ∧ s ∉ n.states

theorem Builds.owned (builds : Builds t olds n t') (owned : t.Owned m) (apart : ∀ s ∈ m.states, s ∉ olds) :
    t'.Owned m ∧ ∀ s ∈ m.states, s ∉ n.states := by
  have kept := fun s inside => builds.kept s (owned.used s inside) (apart s inside)
  refine ⟨?_, fun s inside => (kept s inside).2⟩
  refine
    { nodup := owned.nodup, used := fun s inside => (kept s inside).1.allocated, closed := ?_
      start := owned.start, final := owned.final }
  intro p x q arc
  constructor
  · intro inside
    exact (owned.closed (((kept p inside).1.leaves x q).mp arc)).mp inside
  · intro inside
    exact (owned.closed (((kept q inside).1.enters p x).mp arc)).mpr inside

theorem Builds.operands (builds : Builds t olds r t') (owned : t.Owned l)
    (apart : ∀ s ∈ l.states, s ∉ olds) : Operands t' l r where
  sound := builds.operand.sound
  loud := builds.operand.loud
  left := (builds.owned owned apart).1
  right := builds.operand.owned
  apart := (builds.owned owned apart).2

theorem emptyTables_sound (injective : Function.Injective nodeIndex) : (emptyTables nodeIndex).Sound := by
  have dead : ∀ {e}, ¬(emptyTables nodeIndex).Live e := by
    rintro e ⟨positive, bound, -⟩
    exact Nat.not_succ_le_zero 0 (Nat.le_trans positive bound)
  refine
    { src := ?_, dest := ?_, srcNodup := fun _ => List.nodup_nil, destNodup := fun _ => List.nodup_nil
      srcAllocated := fun live => absurd live dead, destAllocated := fun live => absurd live dead
      freeEdges := ⟨List.nodup_nil, fun e member => absurd member List.not_mem_nil⟩
      freeStates := ⟨List.nodup_nil, fun s member => absurd member List.not_mem_nil⟩
      index := injective }
  all_goals
    intro s e
    exact ⟨fun member => absurd member List.not_mem_nil, fun ends => absurd ends.1 dead⟩

theorem emptyTables_arc (p : NfaState) (x : Option BoolNode) (q : NfaState) : ¬(emptyTables nodeIndex).Arc p x q := by
  rintro ⟨e, ⟨positive, bound, -⟩, -⟩
  exact Nat.not_succ_le_zero 0 (Nat.le_trans positive bound)

theorem emptyTables_loud : (emptyTables nodeIndex).Loud := fun p q => emptyTables_arc p none q

/-- The automaton of a boolean has one edge, unless the boolean is false. -/
theorem Sound.buildBoolean (sound : t.Sound) (loud : t.Loud) (b : BoolNode) :
    Builds t [] (t.buildBoolean b).1 (t.buildBoolean b).2 ∧ (t.buildBoolean b).1.epsilon = false ∧
      (t.buildBoolean b).1.start ≠ (t.buildBoolean b).1.final ∧ ∀ p x q, (t.buildBoolean b).2.Arc p x q ↔ t.Arc p x q ∨
        b ≠ .falseNode ∧ p = (t.buildBoolean b).1.start ∧ x = some b ∧ q = (t.buildBoolean b).1.final := by
  unfold Tables.buildBoolean
  have first := sound.addState createNfa
  dsimp only
  generalize t.addState createNfa = added at first ⊢
  obtain ⟨s₁, n₁, t₁⟩ := added
  dsimp only at first ⊢
  have second := first.sound.addState n₁
  generalize t₁.addState n₁ = added at second ⊢
  obtain ⟨s₂, n₂, t₂⟩ := added
  dsimp only at second ⊢
  have old : ∀ {p}, t₂.Allocated p ↔ (t.Allocated p ∨ p = s₁) ∨ p = s₂ := fun {p} =>
    (second.allocated p).trans (or_congr (first.allocated p) Iff.rfl)
  have apart : s₁ ≠ s₂ := fun same => second.fresh (same ▸ (first.allocated s₁).mpr (.inr rfl))
  have fresh₂ : ¬t.Allocated s₂ := fun used => second.fresh ((first.allocated s₂).mpr (.inl used))
  have states : n₂.states = [s₁, s₂] := by
    rw [second.nfa, first.nfa]
    rfl
  have flag : n₂.epsilon = false := by
    rw [second.nfa, first.nfa]
    rfl
  -- The edge is added or not.
  obtain ⟨u, result, soundU, usedU, arcs⟩ : ∃ u : Tables,
      (if b ≠ .falseNode then (t₂.addEdge s₁ s₂ (some b)).2 else t₂) = u ∧ u.Sound ∧
        (∀ p, u.Allocated p ↔ (t.Allocated p ∨ p = s₁) ∨ p = s₂) ∧
        ∀ p x q, u.Arc p x q ↔ t.Arc p x q ∨ b ≠ .falseNode ∧ p = s₁ ∧ x = some b ∧ q = s₂ := by
    by_cases loudEdge : b ≠ .falseNode
    · have adds := second.sound.addEdge (old.mpr (.inl (.inr rfl))) (old.mpr (.inr rfl)) (some b)
      refine ⟨_, if_pos loudEdge, adds.sound, fun p => adds.allocated.trans old, fun p x q => ?_⟩
      rw [adds.arc, second.arc, first.arc]
      simp [loudEdge]
    · refine ⟨_, if_neg loudEdge, second.sound, fun p => old, fun p x q => ?_⟩
      rw [second.arc, first.arc]
      simp [loudEdge]
  rw [result]
  refine ⟨⟨⟨soundU, ?_, ?_⟩, ?_⟩, flag, apart, arcs⟩
  · intro p q arc
    rcases (arcs p none q).mp arc with arc | ⟨-, -, impossible, -⟩
    · exact loud p q arc
    · cases impossible
  · refine { nodup := ?_, used := ?_, closed := ?_, start := ?_, final := ?_ }
    · rw [states]
      simpa using apart
    · intro s inside
      rw [states, List.mem_cons, List.mem_singleton] at inside
      rcases inside with rfl | rfl
      · exact (usedU _).mpr (.inl (.inr rfl))
      · exact (usedU _).mpr (.inr rfl)
    · intro p x q arc
      rw [states]
      rcases (arcs p x q).mp arc with arc | ⟨-, rfl, -, rfl⟩
      · obtain ⟨usedP, usedQ⟩ := sound.arc_allocated arc
        have outside : ∀ {s}, t.Allocated s → s ∉ [s₁, s₂] := by
          intro s used inside
          rw [List.mem_cons, List.mem_singleton] at inside
          rcases inside with rfl | rfl
          · exact first.fresh used
          · exact fresh₂ used
        exact ⟨fun inside => absurd inside (outside usedP), fun inside => absurd inside (outside usedQ)⟩
      · simp
    · show s₁ ∈ n₂.states
      rw [states]
      exact List.mem_cons_self
    · show s₂ ∈ n₂.states
      rw [states]
      exact List.mem_cons_of_mem _ List.mem_cons_self
  · intro s used _
    have other₁ : s ≠ s₁ := fun same => first.fresh (same ▸ used)
    have other₂ : s ≠ s₂ := fun same => fresh₂ (same ▸ used)
    refine ⟨⟨(usedU s).mpr (.inl (.inl used)), fun x q => ?_, fun p x => ?_⟩, ?_⟩
    · rw [arcs]
      simp [other₁]
    · rw [arcs]
      simp [other₂]
    · show s ∉ n₂.states
      rw [states]
      simp [other₁, other₂]

theorem firstBoolean {b : BoolNode} (expr : b ≠ .falseNode) :
    ∃ n t, buildSereFa (emptyTables BoolNode.number) (.boolean b) = .ok (n, t) ∧ t.Operand n ∧
      n.epsilon = false ∧ n.start ≠ n.final ∧ ∀ p x q, t.Arc p x q ↔ p = n.start ∧ x = some b ∧ q = n.final := by
  obtain ⟨builds, flag, apart, arcs⟩ := (emptyTables_sound BoolNode.number_injective).buildBoolean emptyTables_loud b
  refine ⟨_, _, rfl, builds.operand, flag, apart, fun p x q => (arcs p x q).trans ?_⟩
  rw [or_iff_right (emptyTables_arc p x q)]
  exact and_iff_right expr

end Tables

end Ghdl.Psl
