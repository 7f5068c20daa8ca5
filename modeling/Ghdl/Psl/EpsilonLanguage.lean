import Ghdl.Psl.Build
import Ghdl.Psl.Language

/-!
# Epsilon edges and the language

What a construction that removes its epsilon edges one after the other keeps of the language. `Pending` lists
the epsilon edges that are still there with their ends. The removal of one of them keeps every word but the
empty one, which only its first two branches keep.
-/

namespace Ghdl.Psl

open Automata

namespace Tables

variable {t t' : Tables} {n n' : Nfa} {p q s d : NfaState} {e : NfaEdge} {bs : List BoolNode}
  {ps : List (NfaEdge × NfaState × NfaState)}

/-- The epsilon edges of the tables with their ends. -/
structure Pending (t : Tables) (ps : List (NfaEdge × NfaState × NfaState)) : Prop where
  here : ∀ e s d, (e, s, d) ∈ ps → t.Live e ∧ t.edgeExpr e = none ∧ t.edgeSrc e = s ∧ t.edgeDest e = d
  only : ∀ e, t.Live e → t.edgeExpr e = none → e ∈ ps.map Prod.fst
  nodup : (ps.map Prod.fst).Nodup

theorem Pending.arc (pending : Pending t ps) : t.Arc p none q ↔ (p, q) ∈ ps.map Prod.snd := by
  constructor
  · rintro ⟨e, live, from', null, to'⟩
    obtain ⟨⟨e', s, d⟩, member, rfl⟩ := List.mem_map.mp (pending.only e live null)
    obtain ⟨-, -, from'', to''⟩ := pending.here _ _ _ member
    refine List.mem_map.mpr ⟨_, member, ?_⟩
    rw [← from', ← to', from'', to'']
  · intro member
    obtain ⟨⟨e, s, d⟩, inside, same⟩ := List.mem_map.mp member
    obtain ⟨rfl, rfl⟩ := Prod.mk.injEq .. ▸ same
    obtain ⟨live, null, from', to'⟩ := pending.here _ _ _ inside
    exact ⟨e, live, from', null, to'⟩

theorem Pending.lone (pending : Pending t ps) (nodup : (ps.map Prod.snd).Nodup) : t.LoneEpsilons := by
  intro e e' live live' null null' sameSrc sameDest
  obtain ⟨⟨e, s, d⟩, member, rfl⟩ := List.mem_map.mp (pending.only e live null)
  obtain ⟨⟨e', s', d'⟩, member', rfl⟩ := List.mem_map.mp (pending.only e' live' null')
  obtain ⟨-, -, from', to'⟩ := pending.here _ _ _ member
  obtain ⟨-, -, from'', to''⟩ := pending.here _ _ _ member'
  have ends : (s, d) = (s', d') := by
    rw [← from', ← to', ← from'', ← to'']
    exact Prod.ext sameSrc sameDest
  exact congrArg Prod.fst (List.inj_on_of_nodup_map nodup member member' ends)

theorem Pending.move {src dest : NfaState → NfaState} (pending : Pending t ps) (moves : MovesEpsilons t t' src dest)
    (old : ∀ e, t'.Live e → t'.edgeExpr e = none → t.Live e ∧ t.edgeExpr e = none) :
    Pending t' (ps.map fun i => (i.1, src i.2.1, dest i.2.2)) where
  here e s d member := by
    obtain ⟨⟨e', s', d'⟩, inside, same⟩ := List.mem_map.mp member
    obtain ⟨rfl, rfl, rfl⟩ : e' = e ∧ src s' = s ∧ dest d' = d := by simpa using same
    obtain ⟨live, null, rfl, rfl⟩ := pending.here _ _ _ inside
    exact moves e' live null
  only e live null := by
    obtain ⟨live', null'⟩ := old e live null
    rw [List.map_map]
    exact pending.only e live' null'
  nodup := by
    rw [List.map_map]
    exact pending.nodup

theorem Sound.removeEpsilon (sound : t.Sound) (n : Nfa) (pending : Pending t ((e, s, d) :: ps))
    (different : s ≠ d) (ends : (ps.map Prod.snd).Nodup) : ∃ n' t₀ t', t.removeEpsilon n e = .ok (n', t') ∧ t'.Sound ∧
      (∀ p x q, t.Arc p x q ↔ Silenced t₀.Arc s d p x q) ∧ Pending t₀ ps ∧
      (∀ e, t'.Live e → t'.edgeExpr e = none → t₀.Live e ∧ t₀.edgeExpr e = none) ∧
      (∀ p, t₀.Allocated p ↔ t.Allocated p) ∧ RemovesEpsilonEdge t₀ n s d n' t' := by
  obtain ⟨live, null, from', to'⟩ := pending.here e s d List.mem_cons_self
  obtain ⟨t₀, run₀, removes⟩ := sound.removeEdge live
  obtain ⟨outside, nodup⟩ := List.nodup_cons.mp pending.nodup
  have pending₀ : Pending t₀ ps := by
    refine ⟨fun e' s' d' member => ?_, fun e' live' null' => ?_, nodup⟩
    · obtain ⟨live', known⟩ := pending.here e' s' d' (List.mem_cons_of_mem _ member)
      rw [removes.edgeSrc, removes.edgeDest, removes.edgeExpr]
      refine ⟨(removes.live e').mpr ⟨live', fun same => outside ?_⟩, known⟩
      exact List.mem_singleton.mp same ▸ List.mem_map.mpr ⟨_, member, rfl⟩
    · rw [removes.edgeExpr] at null'
      obtain ⟨live', other⟩ := (removes.live e').mp live'
      exact (List.mem_cons.mp (pending.only e' live' null')).resolve_left
        fun same => other (List.mem_singleton.mpr same)
  have fromUsed : t.Allocated s := from' ▸ sound.srcAllocated live
  have toUsed : t.Allocated d := to' ▸ sound.destAllocated live
  obtain ⟨n', t', run, sound', old, epsilon⟩ := removes.sound.removeEpsilonEdge n different
    (removes.same.allocated.mpr fromUsed) (removes.same.allocated.mpr toUsed) (pending₀.lone ends)
  refine ⟨n', t₀, t', ?_, sound', fun p x q => ?_, pending₀, old, fun p => removes.same.allocated, epsilon⟩
  · simp only [Tables.removeEpsilon, run₀, from', to', bind, Except.bind]
    exact run
  · rw [removes.arc_or live, from', to', null]
    exact Iff.rfl

/-- The removal of an epsilon edge keeps the words that are not empty: the states after the epsilon edges
from D are dead ends, so that a path that the last branch loses reads nothing. -/
theorem RemovesEpsilonEdge.path_iff (removes : RemovesEpsilonEdge t n s d n' t') (final : n.final ≠ s)
    (start : n.start ≠ d) (quiet : ∀ r, ¬t.Arc r none s)
    (ends : ∀ r, t.Arc d none r → ∀ x q, ¬t.Arc r x q) (nonempty : bs ≠ []) :
    Path t'.Arc n'.start bs n'.final ↔ Path (Silenced t.Arc s d) n.start bs n.final := by
  cases removes with
  | redirected alone arc allocated nfa epsilons =>
    rw [nfa, Path.congr arc]
    have exact := @path_redirected _ _ _ s d n.start n.final bs alone final
    rw [exact]
    by_cases here : n.start = s
    · simp [here]
    · simp [here]
  | resourced leaves alone arc allocated nfa epsilons =>
    rw [nfa, Path.congr arc]
    have exact := @path_resourced _ _ _ s d n.start n.final bs alone start
    rw [exact]
    by_cases here : n.final = d
    · simp [here]
    · simp [here]
  | duplicated leaves enters arc allocated nfa epsilons =>
    rw [nfa, Path.congr arc]
    constructor
    · exact path_of_duplicated
    intro path
    rcases path_duplicated quiet path with path | ⟨-, ⟨empty, -⟩ | ⟨r, next, path⟩⟩
    · exact path
    · exact absurd empty nonempty
    · -- Nothing leaves the state after the second epsilon edge.
      have dead : ∀ x q, ¬Forked (Duplicated t.Arc s d) s d r x q := by
        rintro x q ((taken | ⟨taken, -⟩) | ⟨-, -, same⟩)
        · exact ends r next _ _ taken
        · exact ends r next _ _ taken
        · exact quiet d (same ▸ next)
      cases path with
      | nil => exact absurd rfl nonempty
      | silent first _ | letter first _ => exact absurd first (dead _ _)

end Tables

end Ghdl.Psl
