import Mathlib.Data.List.Nodup
import Mathlib.Data.List.Perm.Subperm

/-!
# Search with a stack

The search that marks what can be reached from a node: a node is taken from the stack, and its successors
that are not marked are marked and pushed. With as much fuel as there are nodes the search ends, and the
marked nodes are exactly those that can be reached.
-/

namespace Automata

variable {σ : Type*} [DecidableEq σ]

/-- A node is marked and pushed unless it is marked already. -/
def visit (state : List σ × List σ) (s : σ) : List σ × List σ :=
  if s ∈ state.2 then state else (s :: state.1, s :: state.2)

/-- The search from the stack, with the marked nodes. -/
def search (next : σ → List σ) : Nat → List σ → List σ → Option (List σ)
  | _, [], marked => some marked
  | 0, _ :: _, _ => none
  | fuel + 1, s :: stack, marked =>
    let (stack, marked) := (next s).foldl visit (stack, marked)
    search next fuel stack marked

/-- The node can be reached along successors. -/
abbrev Reached (next : σ → List σ) : σ → σ → Prop := Relation.ReflTransGen fun a b => b ∈ next a

variable {next : σ → List σ} {start s : σ} {stack marked stack' marked' : List σ} {fuel : Nat}

/-- What holds of the stack and of the marked nodes. -/
structure Marking (next : σ → List σ) (start : σ) (stack marked : List σ) : Prop where
  nodup : marked.Nodup
  stackNodup : stack.Nodup
  pushed : ∀ s ∈ stack, s ∈ marked
  root : start ∈ marked
  reached : ∀ s ∈ marked, Reached next start s
  done : ∀ s ∈ marked, s ∉ stack → ∀ t ∈ next s, t ∈ marked

/-- What the visits of the successors do. -/
structure Visits (succs stack marked stack' marked' : List σ) : Prop where
  nodup : marked'.Nodup
  stackNodup : stack'.Nodup
  pushed : ∀ s ∈ stack', s ∈ marked'
  mem : ∀ s, s ∈ marked' ↔ s ∈ marked ∨ s ∈ succs
  rest : ∀ s ∈ marked', s ∉ stack' → s ∈ marked ∧ s ∉ stack
  handled : marked'.length + stack.length = marked.length + stack'.length

theorem visits (succs : List σ) (nodup : marked.Nodup) (stackNodup : stack.Nodup) (pushed : ∀ s ∈ stack, s ∈ marked) :
    Visits succs stack marked (succs.foldl visit (stack, marked)).1 (succs.foldl visit (stack, marked)).2 := by
  induction succs generalizing stack marked with
  | nil =>
    exact ⟨nodup, stackNodup, pushed, fun s => by simp, fun s member outside => ⟨member, outside⟩, rfl⟩
  | cons s succs ih =>
    rw [List.foldl_cons]
    by_cases known : s ∈ marked
    · have same : visit (stack, marked) s = (stack, marked) := if_pos known
      rw [same]
      have later := ih nodup stackNodup pushed
      refine ⟨later.nodup, later.stackNodup, later.pushed, fun t => ?_, later.rest, later.handled⟩
      rw [later.mem, List.mem_cons]
      constructor
      · rintro (member | member)
        · exact .inl member
        · exact .inr (.inr member)
      · rintro (member | rfl | member)
        · exact .inl member
        · exact .inl known
        · exact .inr member
    have pushes : visit (stack, marked) s = (s :: stack, s :: marked) := if_neg known
    rw [pushes]
    have later := ih (List.nodup_cons.mpr ⟨known, nodup⟩)
      (List.nodup_cons.mpr ⟨fun member => known (pushed s member), stackNodup⟩)
      (fun t member => by
        rcases List.mem_cons.mp member with rfl | member
        · exact List.mem_cons_self
        · exact List.mem_cons_of_mem _ (pushed t member))
    refine ⟨later.nodup, later.stackNodup, later.pushed, fun t => ?_, fun t member outside => ?_, ?_⟩
    · rw [later.mem, List.mem_cons, List.mem_cons]
      tauto
    · obtain ⟨member, outside⟩ := later.rest t member outside
      rw [List.mem_cons, not_or] at outside
      exact ⟨(List.mem_cons.mp member).resolve_left outside.1, outside.2⟩
    · have handled := later.handled
      simp only [List.length_cons] at handled
      omega

theorem Marking.init : Marking next start [start] [start] where
  nodup := List.nodup_singleton start
  stackNodup := List.nodup_singleton start
  pushed _ member := member
  root := List.mem_singleton_self start
  reached s member := by
    rw [List.mem_singleton.mp member]
  done s member outside := absurd member outside

theorem Marking.step (marking : Marking next start (s :: stack) marked) :
    Marking next start ((next s).foldl visit (stack, marked)).1 ((next s).foldl visit (stack, marked)).2 := by
  have here : s ∈ marked := marking.pushed s List.mem_cons_self
  obtain ⟨outside, stackNodup⟩ := List.nodup_cons.mp marking.stackNodup
  have later := visits (next s) marking.nodup stackNodup
    fun t member => marking.pushed t (List.mem_cons_of_mem _ member)
  refine ⟨later.nodup, later.stackNodup, later.pushed, (later.mem _).mpr (.inl marking.root), ?_, ?_⟩
  · intro t member
    rcases (later.mem t).mp member with member | member
    · exact marking.reached t member
    · exact (marking.reached s here).tail member
  · intro t member outside t' successor
    obtain ⟨member, outside⟩ := later.rest t member outside
    by_cases same : t = s
    · exact (later.mem t').mpr (.inr (same ▸ successor))
    · have old : t ∉ s :: stack := by
        rw [List.mem_cons, not_or]
        exact ⟨same, outside⟩
      exact (later.mem t').mpr (.inl (marking.done t member old t' successor))

omit [DecidableEq σ] in
theorem Marking.complete (marking : Marking next start [] marked) : s ∈ marked ↔ Reached next start s := by
  constructor
  · exact marking.reached s
  · intro reached
    induction reached with
    | refl => exact marking.root
    | tail _ successor ih => exact marking.done _ ih List.not_mem_nil _ successor

theorem search_complete {region : List σ} (marking : Marking next start stack marked)
    (inside : ∀ s, Reached next start s → s ∈ region) (enough : region.length ≤ fuel + (marked.length - stack.length)) :
    ∃ result, search next fuel stack marked = some result ∧ ∀ s, s ∈ result ↔ Reached next start s := by
  induction fuel generalizing stack marked with
  | zero =>
    cases stack with
    | nil => exact ⟨marked, rfl, fun s => marking.complete⟩
    | cons s stack =>
      have bound : marked.length ≤ region.length :=
        (marking.nodup.subperm fun t member => inside t (marking.reached t member)).length_le
      have used : (s :: stack).length ≤ marked.length :=
        (marking.stackNodup.subperm fun t member => marking.pushed t member).length_le
      simp only [List.length_cons] at enough used
      omega
  | succ fuel ih =>
    cases stack with
    | nil => exact ⟨marked, rfl, fun s => marking.complete⟩
    | cons s stack =>
      have later := marking.step
      have handled := (visits (next s) marking.nodup (List.nodup_cons.mp marking.stackNodup).2
        fun t member => marking.pushed t (List.mem_cons_of_mem _ member)).handled
      have used : (s :: stack).length ≤ marked.length :=
        (marking.stackNodup.subperm fun t member => marking.pushed t member).length_le
      refine ih later ?_
      simp only [List.length_cons] at enough used
      omega

theorem search_start {region : List σ} (inside : ∀ s, Reached next start s → s ∈ region) :
    ∃ result, search next region.length [start] [start] = some result ∧ ∀ s, s ∈ result ↔ Reached next start s :=
  search_complete Marking.init inside (by simp)

end Automata
