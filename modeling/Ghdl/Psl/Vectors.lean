import Ghdl.Psl.Labels
import Ghdl.Psl.Successors

/-!
# Vectors that follow each other

`Determinize_1` discovers vectors of states. A letter leads from a vector to the one of the states that are
reached, unless the final state is among them.
-/

namespace Ghdl.Psl

open Automata Fallible

namespace Tables

variable {t t₀ t' : Tables} {n n' : Nfa} {nbr d : Nat} {v v' : BoolVector} {letter : Valuation}
  {s p q : NfaState} {deter : Deter} {move : BoolVector → Valuation → BoolVector → Prop} {e : NfaEdge}
  {x : Option BoolNode} {w : List Valuation}

/-- The state is in the vector. -/
def InVector (t : Tables) (n : Nfa) (v : BoolVector) (s : NfaState) : Prop :=
  s ∈ n.states ∧ v.getD (t.stateLabel s) false = true

/-- The letter leads from the vector to a state with the label. -/
def Leads (t : Tables) (n : Nfa) (v : BoolVector) (letter : Valuation) (d : Nat) : Prop :=
  ∃ s, t.InVector n v s ∧ ∃ q, t.Step s (some letter) q ∧ t.stateLabel q = d

/-- An edge leaves the state. -/
def Busy (t : Tables) (s : NfaState) : Prop := ∃ x q, t.Arc s x q

/-- The vector is followed by another one. -/
def VectorMove (t : Tables) (n : Nfa) (nbr : Nat) (v : BoolVector) (letter : Valuation) (v' : BoolVector) :
    Prop :=
  (∃ s, t.InVector n v s ∧ t.Busy s) ∧ ¬t.Leads n v letter (t.stateLabel n.final) ∧ v'.length = nbr ∧
    ∀ d, v'.getD d false = true ↔ d ≠ t.stateLabel n.final ∧ t.Leads n v letter d

theorem vector_ext (length : v.length = v'.length)
    (bits : ∀ d, v.getD d false = true ↔ v'.getD d false = true) : v = v' := by
  refine List.ext_getElem length fun d here there => ?_
  have same := bits d
  rw [List.getD_eq_getElem _ _ here, List.getD_eq_getElem _ _ there] at same
  exact Bool.eq_iff_iff.mpr same

theorem getD_replicate_false (nbr d : Nat) : (List.replicate nbr false).getD d false = false := by
  rw [List.getD_eq_getElem?_getD, List.getElem?_replicate]
  split
  · rfl
  · rfl

/-- The expressions of the edges of an automaton are constants or have none. -/
def Tidy (t : Tables) (n : Nfa) : Prop := ∀ p ∈ n.states, ∀ b q, t.Arc p (some b) q → b.Tidy

/-- The edges of an automaton as the discovery sees them: they are the ones that were there. -/
structure Seen (t₀ : Tables) (n : Nfa) (t : Tables) : Prop where
  chains : ∀ s ∈ n.states, t.srcEdges s = t₀.srcEdges s
  labels : ∀ s ∈ n.states, t.stateLabel s = t₀.stateLabel s
  edges : ∀ e, t₀.Live e → t.edgeDest e = t₀.edgeDest e ∧ t.edgeExpr e = t₀.edgeExpr e

theorem seen (operand : t₀.Operand n) (explored : Discovery.Explored t₀ move deter.discovery) : Seen t₀ n deter.t where
  chains s inside := explored.chains s (operand.owned.used s inside)
  labels s inside := explored.labels s (operand.owned.used s inside)
  edges e live := (explored.old e live).2.2

/-- The edges of the states in a vector. -/
def vectorEdges (t : Tables) (n : Nfa) (v : BoolVector) : List NfaEdge :=
  (n.states.filter fun s => v.getD (t.stateLabel s) false).flatMap t.srcEdges

section

variable (sees : Seen t₀ n t)
include sees

theorem Seen.mem_vectorEdges :
    e ∈ t.vectorEdges n v ↔ ∃ s, t₀.InVector n v s ∧ e ∈ t₀.srcEdges s := by
  unfold vectorEdges InVector
  rw [List.mem_flatMap]
  constructor
  · rintro ⟨s, member, edge⟩
    obtain ⟨inside, bit⟩ := List.mem_filter.mp member
    rw [sees.labels s inside] at bit
    rw [sees.chains s inside] at edge
    exact ⟨s, ⟨inside, bit⟩, edge⟩
  · rintro ⟨s, ⟨inside, bit⟩, edge⟩
    rw [← sees.labels s inside] at bit
    rw [← sees.chains s inside] at edge
    exact ⟨s, List.mem_filter.mpr ⟨inside, bit⟩, edge⟩

section

variable (operand : t₀.Operand n)
include operand

theorem Seen.target (inside : s ∈ n.states)
    (member : e ∈ t₀.srcEdges s) : t.target e = t₀.stateLabel (t₀.edgeDest e) ∧ t.edgeExpr e = t₀.edgeExpr e := by
  obtain ⟨live, leaves⟩ := operand.sound.src.mp member
  obtain ⟨to', expr⟩ := sees.edges e live
  have there : t₀.edgeDest e ∈ n.states := (operand.owned.closed ⟨e, live, leaves, rfl, rfl⟩).mp inside
  refine ⟨?_, expr⟩
  unfold Tables.target
  rw [to', sees.labels _ there]

theorem Seen.leads_iff :
    (∃ e ∈ t.vectorEdges n v, t.target e = d ∧ t.EdgeHolds e letter) ↔ t₀.Leads n v letter d := by
  unfold Leads
  constructor
  · rintro ⟨e, member, label, b, expr, holds⟩
    obtain ⟨s, inside, edge⟩ := sees.mem_vectorEdges.mp member
    obtain ⟨same, sameExpr⟩ := sees.target operand inside.1 edge
    obtain ⟨live, leaves⟩ := operand.sound.src.mp edge
    refine ⟨s, inside, t₀.edgeDest e, ⟨b, ⟨e, live, leaves, ?_, rfl⟩, holds⟩, ?_⟩
    · rw [← sameExpr]
      exact expr
    · rw [← same]
      exact label
  · rintro ⟨s, inside, q, ⟨b, ⟨e, live, leaves, expr, rfl⟩, holds⟩, label⟩
    have edge : e ∈ t₀.srcEdges s := operand.sound.src.mpr ⟨live, leaves⟩
    obtain ⟨same, sameExpr⟩ := sees.target operand inside.1 edge
    exact ⟨e, sees.mem_vectorEdges.mpr ⟨s, inside, edge⟩, same.trans label, b, sameExpr.trans expr, holds⟩

theorem Seen.busy_iff :
    (∃ e, e ∈ t.vectorEdges n v) ↔ ∃ s, t₀.InVector n v s ∧ t₀.Busy s := by
  constructor
  · rintro ⟨e, member⟩
    obtain ⟨s, inside, edge⟩ := sees.mem_vectorEdges.mp member
    obtain ⟨live, leaves⟩ := operand.sound.src.mp edge
    exact ⟨s, inside, _, _, e, live, leaves, rfl, rfl⟩
  · rintro ⟨s, inside, x, q, e, live, leaves, -⟩
    exact ⟨e, sees.mem_vectorEdges.mpr ⟨s, inside, operand.sound.src.mpr ⟨live, leaves⟩⟩⟩

theorem Seen.tidy (tidy : t₀.Tidy n) (inside : s ∈ n.states) :
    t.TidyEdges (t.srcEdges s) := by
  intro e member
  rw [sees.chains s inside] at member
  obtain ⟨live, leaves⟩ := operand.sound.src.mp member
  have arc : t₀.Arc s (t₀.edgeExpr e) (t₀.edgeDest e) := ⟨e, live, leaves, rfl, rfl⟩
  rw [(sees.edges e live).2]
  cases expr : t₀.edgeExpr e with
  | none =>
    rw [expr] at arc
    exact absurd arc (operand.loud s _)
  | some b =>
    rw [expr] at arc
    exact ⟨b, rfl, tidy s inside b _ arc⟩

end

end

theorem Gathers.arcs_iff {succ : Successors} (operand : t₀.Operand n) (sees : Seen t₀ n t)
    (bound : ∀ s ∈ n.states, t₀.stateLabel s < nbr)
    (gathers : Gathers t (t₀.stateLabel n.final) (t.vectorEdges n v) succ) (some_edge : ∃ e, e ∈ t.vectorEdges n v) :
    Deter.Arcs succ.exprs succ.states succ.expr (List.replicate nbr false) letter v' ↔
      t₀.VectorMove n nbr v letter v' := by
  have small : ∀ d ∈ succ.states, d < (List.replicate nbr false).length := by
    intro d member
    obtain ⟨-, e, edge, rfl⟩ := (gathers.states d).mp member
    obtain ⟨s, inside, edge⟩ := sees.mem_vectorEdges.mp edge
    obtain ⟨live, leaves⟩ := operand.sound.src.mp edge
    have there := (operand.owned.closed ⟨e, live, leaves, rfl, rfl⟩).mp inside.1
    rw [List.length_replicate, (sees.target operand inside.1 edge).1]
    exact bound _ there
  obtain ⟨length, bits⟩ := @chosen_spec (List.replicate nbr false) letter succ.exprs succ.states small
  rw [List.length_replicate] at length
  have bit : ∀ d, (chosen succ.exprs letter succ.states (List.replicate nbr false)).getD d false = true ↔
      d ≠ t₀.stateLabel n.final ∧ t₀.Leads n v letter d := by
    intro d
    have empty : (List.replicate nbr false).getD d false = false := getD_replicate_false nbr d
    rw [bits, empty, ← sees.leads_iff operand]
    constructor
    · rintro (impossible | ⟨member, b, known, holds⟩)
      · cases impossible
      · exact ⟨((gathers.states d).mp member).1, ((gathers.exprs d b known).2 letter).mp holds⟩
    · rintro ⟨other, e, edge, label, holds⟩
      have member := (gathers.states d).mpr ⟨other, e, edge, label⟩
      obtain ⟨b, known⟩ := Option.ne_none_iff_exists'.mp ((gathers.known d).mp member)
      exact .inr ⟨member, b, known, ((gathers.exprs d b known).2 letter).mpr ⟨e, edge, label, holds⟩⟩
  have final : (∀ b, succ.expr = some b → Holds b letter) ↔
      ¬t₀.Leads n v letter (t₀.stateLabel n.final) := by
    rw [← sees.leads_iff operand]
    cases known : succ.expr with
    | none =>
      have nothing := gathers.none.mp known
      refine iff_of_true (fun b impossible => by cases impossible) ?_
      rintro ⟨e, edge, label, -⟩
      exact nothing ⟨e, edge, label⟩
    | some b =>
      rw [← (gathers.expr b known).2 letter]
      constructor
      · exact fun all => all b rfl
      · intro holds c same
        obtain rfl := Option.some.inj same
        exact holds
  unfold Deter.Arcs VectorMove
  rw [final]
  constructor
  · rintro ⟨other, rfl⟩
    exact ⟨(sees.busy_iff operand).mp some_edge, other, length, bit⟩
  · rintro ⟨-, other, length', bits'⟩
    exact ⟨other, vector_ext (length'.trans length.symm) fun d => (bits' d).trans (bit d).symm⟩

theorem handle_builds (operand : t₀.Operand n) (tidy : t₀.Tidy n)
    (bound : ∀ s ∈ n.states, t₀.stateLabel s < nbr) (good : deter.Good)
    (explored : Discovery.Explored t₀ move deter.discovery) (source : (v, s) ∈ deter.leaves) :
    Yields QmLimit (Deter.BuildsArcs t₀ (·.length = nbr) move v (t₀.VectorMove n nbr v) deter)
      (Deter.handle n nbr deter v s) := by
  have sees := seen operand explored
  obtain ⟨succ, run, gathers⟩ := (@Gathers.nil deter.t (deter.t.stateLabel n.final)).chains
    (n.states.filter fun s => v.getD (deter.t.stateLabel s) false) fun s member => sees.tidy operand tidy (List.mem_of_mem_filter member)
  rw [List.nil_append, sees.labels _ operand.owned.final] at gathers
  unfold Deter.handle Tables.successors
  rw [run]
  show Yields QmLimit _ (if succ.states = [] ∧ succ.expr = none then _ else _)
  by_cases idle : succ.states = [] ∧ succ.expr = none
  · rw [if_pos idle]
    refine Deter.BuildsArcs.none good explored fun letter v' moved => ?_
    obtain ⟨e, edge⟩ := (sees.busy_iff operand).mpr moved.1
    by_cases there : deter.t.target e = t₀.stateLabel n.final
    · exact gathers.none.mp idle.2 ⟨e, edge, there⟩
    · have member := (gathers.states _).mpr ⟨there, e, edge, rfl⟩
      rw [idle.1] at member
      exact List.not_mem_nil member
  rw [if_neg idle]
  have some_edge : ∃ e, e ∈ deter.t.vectorEdges n v := by
    by_contra none
    refine idle ⟨List.eq_nil_iff_forall_not_mem.mpr fun d member => ?_, gathers.none.mpr ?_⟩
    · obtain ⟨-, e, edge, -⟩ := (gathers.states d).mp member
      exact none ⟨e, edge⟩
    · rintro ⟨e, edge, -⟩
      exact none ⟨e, edge⟩
  have closed : ∀ (v : BoolVector) s, v.length = nbr → (v.set s true).length = nbr := by
    intro v s length
    rw [List.length_set]
    exact length
  refine (Deter.buildArcs_builds (fun v => v.length = nbr) closed (fun d member => ?_)
    (fun b known => (gathers.expr b known).1) (fun empty known => idle ⟨empty, known⟩) good explored
    List.length_replicate source).mono fun deter' builds => ?_
  · obtain ⟨b, known⟩ := Option.ne_none_iff_exists'.mp ((gathers.known d).mp member)
    exact ⟨b, known, (gathers.exprs d b known).1⟩
  · obtain ⟨good', explored', grew⟩ := builds
    refine ⟨good', explored'.congr fun x letter x' => or_congr Iff.rfl (and_congr_right fun _ => ?_), grew⟩
    exact (gathers.arcs_iff operand sees bound some_edge).symm

/-- All vectors of a length. -/
def vectors : Nat → List BoolVector
  | 0 => [[]]
  | nbr + 1 => (vectors nbr).map (false :: ·) ++ (vectors nbr).map (true :: ·)

theorem mem_vectors : v ∈ vectors nbr ↔ v.length = nbr := by
  induction nbr generalizing v with
  | zero => simp [vectors]
  | succ nbr ih =>
    unfold vectors
    rw [List.mem_append, List.mem_map, List.mem_map]
    constructor
    · rintro (⟨v, member, rfl⟩ | ⟨v, member, rfl⟩)
      all_goals rw [List.length_cons, ih.mp member]
    intro length
    cases v with
    | nil => cases length
    | cons bit v =>
      have member := ih.mpr (Nat.succ.inj length)
      cases bit
      · exact .inl ⟨v, member, rfl⟩
      · exact .inr ⟨v, member, rfl⟩

theorem length_vectors (nbr : Nat) : (vectors nbr).length = 2 ^ nbr := by
  induction nbr with
  | zero => rfl
  | succ nbr ih =>
    unfold vectors
    rw [List.length_append, List.length_map, List.length_map, ih, pow_succ]
    omega

theorem addVector_new (unknown : ∀ leaf ∈ deter.leaves, leaf.1 ≠ v) : ∃ s n t, deter.addVector v =
      (s, { n, t, leaves := deter.leaves ++ [(v, s)], stack := (v, s) :: deter.stack }) := by
  have none : deter.leaves.find? (fun leaf => leaf.1 = v) = none := by
    rw [List.find?_eq_none]
    intro leaf member
    simpa using unknown leaf member
  unfold Deter.addVector
  rw [none]
  exact ⟨_, _, _, rfl⟩

/-- One round of the outer loop of `Determinize_1`. -/
def handleNext (n : Nfa) (nbr : Nat) (deter : Deter) : Outcome Deter :=
  match deter.stack with
  | [] => .ok deter
  | (v, state) :: rest => Deter.handle n nbr { deter with stack := rest } v state

/-- The vector of the start state. -/
def firstVector (nbr : Nat) : BoolVector := true :: List.replicate (nbr - 1) false

theorem run_builds (operand : t₀.Operand n) (tidy : t₀.Tidy n)
    (bound : ∀ s ∈ n.states, t₀.stateLabel s < nbr) (good : deter.Good)
    (before : deter.discovery.Explored t₀ (Discovery.Done (t₀.VectorMove n nbr) deter.discovery))
    (inside : ∀ k ∈ deter.discovery.keys, k ∈ vectors nbr)
    (enough : 2 ^ nbr + deter.discovery.todo.length ≤ 2 ^ nbr + deter.discovery.keys.length) :
    Yields QmLimit (fun deter' => deter'.Good ∧
      Discovery.Handled t₀ (t₀.VectorMove n nbr) (vectors nbr) deter.discovery deter'.discovery)
        (Deter.run n nbr (2 ^ nbr) deter) := by
  refine Discovery.Explored.run Deter.discovery Deter.Good (Deter.run n nbr) (handleNext n nbr)
    (vectors nbr) (t₀.VectorMove n nbr) (fun fuel deter empty => ?_) (fun fuel deter nonempty => ?_)
    (fun deter₁ k rest good todo explored _ => ?_) good before inside (by rwa [length_vectors])
  · have empty : deter.stack = [] := List.map_eq_nil_iff.mp empty
    unfold Deter.run
    rw [empty]
  · have nonempty : deter.stack ≠ [] := fun empty => nonempty (List.map_eq_nil_iff.mpr empty)
    unfold handleNext Deter.run
    cases todo : deter.stack with
    | nil => exact absurd todo nonempty
    | cons leaf rest => rfl
  · have todo : deter₁.stack.map Prod.fst = k :: rest := todo
    unfold handleNext
    cases chained : deter₁.stack with
    | nil =>
      rw [chained] at todo
      cases todo
    | cons leaf rest' =>
      obtain ⟨v, s⟩ := leaf
      rw [chained, List.map_cons] at todo
      obtain ⟨rfl, rfl⟩ : v = k ∧ rest'.map Prod.fst = rest := List.cons.inj todo
      have source : (v, s) ∈ deter₁.leaves := good.stack _ (chained ▸ List.mem_cons_self)
      have good₁ : Deter.Good { deter₁ with stack := rest' } :=
        ⟨good.terms, fun leaf member => good.stack leaf (chained ▸ List.mem_cons_of_mem _ member)⟩
      have todo' : deter₁.discovery.todo = v :: rest'.map Prod.fst := by
        show deter₁.stack.map Prod.fst = _
        rw [chained]
        rfl
      have popped := explored.pop (rest'.map Prod.fst) todo'
      have handled := @handle_builds t₀ n nbr v s { deter₁ with stack := rest' } _ operand tidy bound good₁
        popped source
      refine handled.mono fun deter₂ builds => ?_
      obtain ⟨good₂, explored₂, grew₂⟩ := builds
      refine ⟨good₂, explored₂.congr fun x letter x' => or_congr Iff.rfl ?_, ⟨?_, grew₂.frame⟩⟩
      · exact and_congr_right fun same => same ▸ Iff.rfl
      · obtain ⟨new, table, todo₂, inside⟩ := grew₂.grown
        exact ⟨new, table, todo₂, fun entry member => mem_vectors.mpr (inside entry member)⟩

/-- What `Determinize_1` returns reads the words of the vectors that follow each other. -/
theorem determinize1_builds (operand : t₀.Operand n) (tidy : t₀.Tidy n) (terms : TermsOk t₀.terms)
    (bound : ∀ s ∈ n.states, t₀.stateLabel s < nbr) (positive : 0 < nbr) :
    Yields QmLimit (fun result => Builds t₀ [] result.1 result.2 ∧
      ∀ w, Path result.2.Step result.1.start w result.1.final ↔
        Path (Discovery.MoveStep (t₀.VectorMove n nbr)) (firstVector nbr) w (List.replicate nbr false))
      (t₀.determinize1 n nbr) := by
  have sound := operand.sound
  have firstInside : firstVector nbr ∈ vectors nbr := by
    rw [mem_vectors]
    unfold firstVector
    rw [List.length_cons, List.length_replicate]
    omega
  have lastInside : List.replicate nbr false ∈ vectors nbr := mem_vectors.mpr List.length_replicate
  have different : firstVector nbr ≠ List.replicate nbr false := by
    intro same
    have bit := getD_replicate_false nbr 0
    rw [← same] at bit
    cases bit
  -- The start vector and the failure vector.
  let deter₀ : Deter := { n := createNfa, t := t₀, leaves := [], stack := [] }
  have good₀ : deter₀.Good := ⟨terms, fun leaf member => absurd member List.not_mem_nil⟩
  have explored₀ : Discovery.Explored t₀ (fun _ _ _ => False) deter₀.discovery :=
    Discovery.Explored.init sound createNfa rfl
  obtain ⟨start, n₁, t₁, add₁⟩ := @addVector_new (firstVector nbr) deter₀
    fun leaf member => absurd member List.not_mem_nil
  obtain ⟨_, _, same₁, good₁, explored₁, -, grew₁⟩ := Deter.addVector_builds good₀ explored₀ firstInside
  obtain ⟨rfl, rfl⟩ := Prod.mk.inj (add₁.symm.trans same₁)
  obtain ⟨final, n₂, t₂, add₂⟩ := @addVector_new (List.replicate nbr false)
    { n := n₁, t := t₁, leaves := [] ++ [(firstVector nbr, start)], stack := [(firstVector nbr, start)] }
    fun leaf member => by
      rw [List.nil_append, List.mem_singleton] at member
      rw [member]
      exact different
  obtain ⟨_, _, same₂, good₂, explored₂, -, grew₂⟩ := Deter.addVector_builds good₁ explored₁ lastInside
  obtain ⟨rfl, rfl⟩ := Prod.mk.inj (add₂.symm.trans same₂)
  -- The failure vector is not handled: nothing follows it.
  let deter₃ : Deter :=
    { n := n₂, t := t₂, leaves := [(firstVector nbr, start), (List.replicate nbr false, final)]
      stack := [(firstVector nbr, start)] }
  have good₃ : deter₃.Good := ⟨good₂.terms, fun leaf member => by
    rw [List.mem_singleton.mp member]
    exact List.mem_cons_self⟩
  have explored₃ : Discovery.Explored t₀ (fun _ _ _ => False) deter₃.discovery := explored₂.pop [firstVector nbr] rfl
  have before : Discovery.Explored t₀ (Discovery.Done (t₀.VectorMove n nbr) deter₃.discovery)
      deter₃.discovery := by
    refine explored₃.congr fun k letter k' => ⟨?_, False.elim⟩
    rintro ⟨⟨member, outside⟩, ⟨s, inside, -⟩, -⟩
    have here : k = firstVector nbr ∨ k = List.replicate nbr false := by
      simpa [Discovery.keys, Deter.discovery, deter₃] using member
    have other : k ≠ firstVector nbr := by
      simpa [Deter.discovery, deter₃] using outside
    have bit := inside.2
    rw [here.resolve_left other, getD_replicate_false] at bit
    cases bit
  have inside : ∀ k ∈ deter₃.discovery.keys, k ∈ vectors nbr := by
    intro k member
    have here : k = firstVector nbr ∨ k = List.replicate nbr false := by
      simpa [Discovery.keys, Deter.discovery, deter₃] using member
    rcases here with rfl | rfl
    · exact firstInside
    · exact lastInside
  have run := run_builds operand tidy bound good₃ before inside (Nat.add_le_add_left (by decide : 1 ≤ 2) (2 ^ nbr))
  have add₁' : Deter.addVector { n := createNfa, t := t₀, leaves := [], stack := [] }
      (true :: List.replicate (nbr - 1) false) =
        (start, { n := n₁, t := t₁, leaves := [(firstVector nbr, start)]
                  stack := [(firstVector nbr, start)] }) := add₁
  have add₂' : Deter.addVector { n := n₁, t := t₁, leaves := [(firstVector nbr, start)]
                                 stack := [(firstVector nbr, start)] } (List.replicate nbr false) =
        (final, { n := n₂, t := t₂
                  leaves := [(firstVector nbr, start), (List.replicate nbr false, final)]
                  stack := [(List.replicate nbr false, final), (firstVector nbr, start)] }) := add₂
  unfold determinize1
  dsimp only
  rw [add₁']
  dsimp only
  rw [add₂']
  refine run.bind fun deter₄ result => ?_
  obtain ⟨-, done⟩ := result
  have source : (firstVector nbr, start) ∈ deter₄.discovery.table := done.table _ _ List.mem_cons_self
  have target : (List.replicate nbr false, final) ∈ deter₄.discovery.table :=
    done.table _ _ (List.mem_cons_of_mem _ List.mem_cons_self)
  have explored := done.explored
  have explored₅ := explored.withNfa { deter₄.n with start, final } rfl
  have extension := explored₅.extension sound
  refine ⟨⟨explored₅.operand sound operand.loud (explored₅.mem_states.mpr ⟨_, source⟩)
    (explored₅.mem_states.mpr ⟨_, target⟩), fun s used _ => ⟨extension.untouched used, fun member => ?_⟩⟩,
    fun w => ?_⟩
  · exact explored₅.fresh s member used
  rw [← explored.path_done (Discovery.mem_keys.mpr ⟨start, source⟩)]
  refine (explored₅.path_iff sound source).trans ?_
  constructor
  · rintro ⟨k, member, path⟩
    obtain rfl := explored.state_unique member target
    exact path
  · exact fun path => ⟨_, target, path⟩

end Tables

end Ghdl.Psl
