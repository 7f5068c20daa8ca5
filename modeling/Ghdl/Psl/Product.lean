import Ghdl.Automata.Pairs
import Ghdl.Psl.Discovery
import Ghdl.Psl.Unreachable

/-!
# Language of the product

`Build_Inter` discovers pairs of states. What it reads is what both operands read side by side, where an
operand may wait at its final state when the lengths need not match.
-/

namespace Ghdl.Psl

open Automata Fallible Function

namespace Tables

variable {t t' t₀ : Tables} {l r n : Nfa} {product product' : Product} {extraL extraR : Option NfaEdge}
  {sL sR p q s : NfaState} {eL eR e : NfaEdge} {b : BoolNode} {w : List Valuation}
  {k k' : NfaState × NfaState} {move : NfaState × NfaState → Valuation → NfaState × NfaState → Prop}
  {letter : Valuation}

/-- The letter is read along the edge, which leads to Q. -/
def Reads (t : Tables) (e : NfaEdge) (letter : Valuation) (q : NfaState) : Prop :=
  ∃ b, t.edgeExpr e = some b ∧ Holds b letter ∧ t.edgeDest e = q

theorem Sound.step_iff (sound : t.Sound) : t.Step p (some letter) q ↔ ∃ e ∈ t.srcEdges p, t.Reads e letter q := by
  constructor
  · rintro ⟨b, ⟨e, live, leaves, expr, enters⟩, holds⟩
    exact ⟨e, sound.src.mpr ⟨live, leaves⟩, b, expr, holds, enters⟩
  · rintro ⟨e, member, b, expr, holds, enters⟩
    obtain ⟨live, leaves⟩ := sound.src.mp member
    exact ⟨b, ⟨e, live, leaves, expr, enters⟩, holds⟩

namespace Product

/-- The table of pairs and the pairs that are not handled yet. -/
def discovery (product : Product) : Discovery (NfaState × NfaState) where
  n := product.n
  t := product.t
  table := product.stack.map fun i => ((i.l, i.r), i.res)
  todo := product.unhandled

theorem getState_find (product : Product) (l r : NfaState) :
    (product.getState l r).1 = (product.discovery.find (l, r)).1 ∧
      (product.getState l r).2.discovery = (product.discovery.find (l, r)).2 := by
  have same : product.discovery.table.find? (fun entry => entry.1 = (l, r)) =
      (product.stack.find? fun i => i.l = l ∧ i.r = r).map fun i => ((i.l, i.r), i.res) := by
    unfold discovery
    rw [List.find?_map]
    congr 2
    funext i
    simp [Prod.ext_iff]
  unfold getState Discovery.find
  rw [same]
  cases product.stack.find? fun i => i.l = l ∧ i.r = r with
  | some i => exact ⟨rfl, rfl⟩
  | none =>
    refine ⟨rfl, ?_⟩
    unfold discovery
    simp

theorem getState_builds {region : NfaState × NfaState → Prop} {l r : NfaState}
    (explored : Discovery.Explored t₀ move product.discovery) (inside : region (l, r)) :
    ∃ s product', product.getState l r = (s, product') ∧
      Discovery.Explored t₀ move product'.discovery ∧ ((l, r), s) ∈ product'.discovery.table ∧
        Discovery.Grew region product.discovery product'.discovery := by
  obtain ⟨explored', member, grew⟩ := explored.find inside
  obtain ⟨found, same⟩ := getState_find product l r
  rw [← same, ← found] at member
  rw [← same] at explored' grew
  exact ⟨_, _, rfl, explored', member, grew⟩

/-- The letter is read along both edges, which are not both extra ones. -/
def PairReads (t₀ : Tables) (extraL extraR : Option NfaEdge) (eL eR : NfaEdge) (letter : Valuation)
    (k' : NfaState × NfaState) : Prop :=
  ¬(some eL = extraL ∧ some eR = extraR) ∧ t₀.Reads eL letter k'.1 ∧ t₀.Reads eR letter k'.2

/-- The letters that are read from pair to pair. -/
def Moves (t₀ : Tables) (extraL extraR : Option NfaEdge) (k : NfaState × NfaState) (letter : Valuation)
    (k' : NfaState × NfaState) : Prop :=
  ∃ eL ∈ t₀.srcEdges k.1, ∃ eR ∈ t₀.srcEdges k.2, PairReads t₀ extraL extraR eL eR letter k'

/-- The pairs of states of two automata. -/
def region (l r : Nfa) : List (NfaState × NfaState) := l.states.product r.states

theorem mem_region : k ∈ region l r ↔ k.1 ∈ l.states ∧ k.2 ∈ r.states := by
  unfold region
  exact List.pair_mem_product

theorem Sound.edge_arc (sound : t.Sound) (member : e ∈ t.srcEdges s) : t.Arc s (t.edgeExpr e) (t.edgeDest e) := by
  obtain ⟨live, leaves⟩ := sound.src.mp member
  exact ⟨e, live, leaves, rfl, rfl⟩

theorem pairReads_iff {exprL exprR : BoolNode} (other : ¬(some eL = extraL ∧ some eR = extraR))
    (isL : t₀.edgeExpr eL = some exprL) (isR : t₀.edgeExpr eR = some exprR) :
    PairReads t₀ extraL extraR eL eR letter k' ↔
      Holds (buildBoolAnd exprL exprR) letter ∧ k' = (t₀.edgeDest eL, t₀.edgeDest eR) := by
  unfold PairReads Reads Holds
  rw [isL, isR, eval_buildBoolAnd, Bool.and_eq_true]
  constructor
  · rintro ⟨-, ⟨x, sameL, holdsL, toL⟩, ⟨y, sameR, holdsR, toR⟩⟩
    obtain rfl := Option.some.inj sameL
    obtain rfl := Option.some.inj sameR
    exact ⟨⟨holdsL, holdsR⟩, Prod.ext toL.symm toR.symm⟩
  · rintro ⟨⟨holdsL, holdsR⟩, rfl⟩
    exact ⟨other, ⟨exprL, rfl, holdsL, rfl⟩, ⟨exprR, rfl, holdsR, rfl⟩⟩

section

variable (operands : t₀.Operand l ∧ t₀.Operand r)

include operands

theorem addPair_builds (explored : Discovery.Explored t₀ move product.discovery)
    (insideL : sL ∈ l.states) (insideR : sR ∈ r.states) (memberL : eL ∈ t₀.srcEdges sL)
    (memberR : eR ∈ t₀.srcEdges sR) : ∃ product', addPair extraL extraR sL sR eL product eR = .ok product' ∧
      Discovery.Explored t₀
        (fun k letter k' => move k letter k' ∨ k = (sL, sR) ∧ PairReads t₀ extraL extraR eL eR letter k')
          product'.discovery ∧ Discovery.Grew (· ∈ region l r) product.discovery product'.discovery := by
  obtain ⟨⟨sound, loud, left⟩, ⟨-, -, right⟩⟩ := operands
  have arcL := Sound.edge_arc sound memberL
  have arcR := Sound.edge_arc sound memberR
  have there : (t₀.edgeDest eL, t₀.edgeDest eR) ∈ region l r :=
    mem_region.mpr ⟨(left.closed arcL).mp insideL, (right.closed arcR).mp insideR⟩
  have here : (sL, sR) ∈ region l r := mem_region.mpr ⟨insideL, insideR⟩
  unfold addPair
  by_cases extra : some eL = extraL ∧ some eR = extraR
  · refine ⟨product, if_pos extra, explored.congr fun k letter k' => ?_, .refl _ _⟩
    unfold PairReads
    simp [extra]
  obtain ⟨exprL, isL⟩ : ∃ x, t₀.edgeExpr eL = some x := Option.ne_none_iff_exists'.mp fun none =>
    loud sL (t₀.edgeDest eL) (none ▸ arcL)
  obtain ⟨exprR, isR⟩ : ∃ x, t₀.edgeExpr eR = some x := Option.ne_none_iff_exists'.mp fun none =>
    loud sR (t₀.edgeDest eR) (none ▸ arcR)
  have oldL := explored.old eL (sound.src.mp memberL).1
  have oldR := explored.old eR (sound.src.mp memberR).1
  have exprs : product.t.edgeExpr eL = some exprL ∧ product.t.edgeExpr eR = some exprR :=
    ⟨oldL.2.2.2.trans isL, oldR.2.2.2.trans isR⟩
  rw [if_neg extra, exprs.1, exprs.2]
  obtain ⟨src, product₁, get₁, first, source, grew⟩ := getState_builds explored here
  have destL : product₁.t.edgeDest eL = t₀.edgeDest eL := (first.old eL (sound.src.mp memberL).1).2.2.1
  have destR : product₁.t.edgeDest eR = t₀.edgeDest eR := (first.old eR (sound.src.mp memberR).1).2.2.1
  obtain ⟨dest, product₂, get₂, second, target, grew'⟩ := getState_builds first there
  rw [get₁]
  dsimp only
  rw [destL, destR, get₂]
  refine ⟨_, rfl, ?_, ?_⟩
  · exact (second.link (grew'.mem_table source) target (buildBoolAnd exprL exprR)).congr
      fun k letter k' => or_congr Iff.rfl (and_congr_right fun _ => pairReads_iff extra isL isR)
  · exact ⟨(grew.trans grew').grown, (grew.trans grew').frame⟩

theorem handle_builds (explored : Discovery.Explored t₀ move product.discovery)
    (insideL : sL ∈ l.states) (insideR : sR ∈ r.states) : Yields (fun _ => False) (fun product' =>
      Discovery.Explored t₀ (fun k letter k' => move k letter k' ∨ k = (sL, sR) ∧ Moves t₀ extraL extraR k letter k')
          product'.discovery ∧ Discovery.Grew (· ∈ region l r) product.discovery product'.discovery)
      (handle extraL extraR product sL sR) := by
  have chainL : product.t.srcEdges sL = t₀.srcEdges sL := explored.chains sL (operands.1.owned.used sL insideL)
  unfold handle
  rw [chainL]
  refine (Discovery.Explored.foldlM discovery (fun _ => True) (· ∈ region l r)
    (fun product eL => (product.t.srcEdges sR).foldlM (addPair extraL extraR sL sR eL) product)
    (fun eL k letter k' => ∃ eR ∈ t₀.srcEdges sR, k = (sL, sR) ∧ PairReads t₀ extraL extraR eL eR letter k')
    (t₀.srcEdges sL) (fun eL memberL product₁ move₁ _ explored₁ _ => ?_) trivial explored).mono ?_
  · have chainR : product₁.t.srcEdges sR = t₀.srcEdges sR := explored₁.chains sR (operands.2.owned.used sR insideR)
    rw [chainR]
    refine Discovery.Explored.foldlM discovery (fun _ => True) (· ∈ region l r) (addPair extraL extraR sL sR eL)
      (fun eR k letter k' => k = (sL, sR) ∧ PairReads t₀ extraL extraR eL eR letter k') (t₀.srcEdges sR)
      (fun eR memberR product₂ move₂ _ explored₂ _ => ?_) trivial explored₁
    obtain ⟨product₃, run₃, explored₃, grew₃⟩ := addPair_builds operands explored₂ insideL insideR memberL memberR
    exact .of_returns ⟨product₃, run₃, trivial, explored₃, grew₃⟩
  · rintro product' ⟨-, explored', grew⟩
    refine ⟨explored'.congr fun k letter k' => or_congr Iff.rfl ?_, grew⟩
    unfold Moves
    constructor
    · rintro ⟨rfl, eL, memberL, eR, memberR, pair⟩
      exact ⟨eL, memberL, eR, memberR, rfl, pair⟩
    · rintro ⟨eL, memberL, eR, memberR, rfl, pair⟩
      exact ⟨rfl, eL, memberL, eR, memberR, pair⟩

end

/-- One round of the outer loop. -/
def handleNext (extraL extraR : Option NfaEdge) (product : Product) : Outcome Product :=
  match product.unhandled with
  | [] => .ok product
  | (sL, sR) :: rest => handle extraL extraR { product with unhandled := rest } sL sR

theorem run_builds (extraL extraR : Option NfaEdge) (operands : t₀.Operand l ∧ t₀.Operand r)
    (before : product.discovery.Explored t₀ (Discovery.Done (Moves t₀ extraL extraR) product.discovery))
    (inside : ∀ k ∈ product.discovery.keys, k ∈ region l r) (enough : (region l r).length + product.unhandled.length ≤
      l.states.length * r.states.length + product.discovery.keys.length) :
    ∃ product', run extraL extraR (l.states.length * r.states.length) product = .ok product' ∧
      Discovery.Handled t₀ (Moves t₀ extraL extraR) (region l r) product.discovery product'.discovery := by
  refine ((Discovery.Explored.run discovery (fun _ => True) (run extraL extraR)
    (handleNext extraL extraR) (region l r) (Moves t₀ extraL extraR) (fun fuel product empty => ?_)
    (fun fuel product nonempty => ?_) (fun product₁ k rest _ todo explored inside => ?_)
    trivial before inside enough).mono fun product' done => done.2).returns
  · have empty : product.unhandled = [] := empty
    unfold run
    rw [empty]
  · have nonempty : product.unhandled ≠ [] := nonempty
    unfold handleNext run
    cases todo : product.unhandled with
    | nil => exact absurd todo nonempty
    | cons k rest => rfl
  · have todo : product₁.unhandled = k :: rest := todo
    obtain ⟨insideL, insideR⟩ := mem_region.mp inside
    have popped := explored.pop rest todo
    have handled := @handle_builds t₀ l r { product₁ with unhandled := rest } extraL extraR k.1 k.2 _
      operands popped insideL insideR
    unfold handleNext
    rw [todo]
    exact handled.mono fun product₂ builds => ⟨trivial, builds⟩

end Product

theorem Extends.removesStates {u : Tables} {n n' : Nfa} {dead : List NfaState} (sound : t.Sound)
    (extension : Extends t u) (removes : RemovesStates u n dead n' t')
    (new : ∀ s ∈ dead, ¬t.Allocated s) : Extends t t' := by
  have alive : ∀ {s}, t.Allocated s → s ∉ dead := fun used gone => new _ gone used
  refine ⟨fun s used => ?_, fun e live => ?_, fun e live => ?_⟩
  · exact (removes.allocated s).mpr ⟨extension.allocated s used, alive used⟩
  · obtain ⟨live', from', to', expr⟩ := extension.old e live
    rw [removes.edgeSrc, removes.edgeDest, removes.edgeExpr]
    refine ⟨(removes.live e).mpr ⟨live', ?_, ?_⟩, from', to', expr⟩
    · rw [from']
      exact alive (sound.srcAllocated live)
    · rw [to']
      exact alive (sound.destAllocated live)
  · rw [removes.edgeSrc, removes.edgeDest]
    exact extension.new e ((removes.live e).mp live).1

theorem Operand.interProduct (left : t.Operand l) (right : t.Operand r) (extraL extraR : Option NfaEdge) :
    ∃ n t', t.interProduct l r extraL extraR = .ok (n, t') ∧ t'.Operand n ∧
      (∀ s ∈ n.states, ¬t.Allocated s) ∧ n.epsilon = false ∧ Extends t t' ∧ ∀ w, Path t'.Step n.start w n.final ↔
          Path (Discovery.MoveStep (Product.Moves t extraL extraR)) (l.start, r.start) w (l.final, r.final) := by
  have sound := left.sound
  have first : (l.start, r.start) ∈ Product.region l r := Product.mem_region.mpr ⟨left.owned.start, right.owned.start⟩
  have last : (l.final, r.final) ∈ Product.region l r := Product.mem_region.mpr ⟨left.owned.final, right.owned.final⟩
  -- The start state.
  let product₀ : Product := { n := createNfa, t, stack := [], unhandled := [] }
  have explored₀ : Discovery.Explored t (fun _ _ _ => False) product₀.discovery :=
    Discovery.Explored.init sound createNfa rfl
  obtain ⟨start, product₁, get₁, explored₁, source, grew₁⟩ := Product.getState_builds explored₀ first
  let product₂ : Product := { product₁ with n := { product₁.n with start } }
  have explored₂ : Discovery.Explored t (fun _ _ _ => False) product₂.discovery :=
    explored₁.withNfa { product₁.n with start } rfl
  have unhandled : ∀ k, ¬(k ∈ product₂.discovery.keys ∧ k ∉ product₂.discovery.todo) := by
    intro k handled
    have before := (grew₁.handled explored₁.keysNodup).mp handled
    exact absurd before.1 List.not_mem_nil
  have inside : ∀ k ∈ product₂.discovery.keys, k ∈ Product.region l r := by
    intro k member
    exact (grew₁.keys_inside member).resolve_left List.not_mem_nil
  have length : product₂.discovery.keys.length + 0 = 0 + product₂.unhandled.length := grew₁.length
  have pairs : (Product.region l r).length = l.states.length * r.states.length :=
    List.length_product l.states r.states
  -- The pairs that are met.
  obtain ⟨product₃, run₃, done⟩ := Product.run_builds extraL extraR ⟨left, right⟩
    (explored₂.congr fun k letter k' => ⟨fun done => unhandled k done.1, False.elim⟩) inside (by omega)
  have explored₃ := done.explored
  -- The final state.
  obtain ⟨final, product₄, get₄, explored₄, target, grew₄⟩ := Product.getState_builds explored₃ last
  have explored₅ := explored₄.withNfa { product₄.n with final } rfl
  have source₃ := done.table _ _ source
  have source₄ := grew₄.mem_table source₃
  have frame₃ : product₃.n = { product₂.n with states := product₃.n.states } := done.frame
  have frame₄ : product₄.n = { product₃.n with states := product₄.n.states } := grew₄.frame
  have startIs : product₄.n.start = start := by rw [frame₄, frame₃]
  have flag : product₄.n.epsilon = false := by
    have frame₁ : product₁.n = { createNfa with states := product₁.n.states } := grew₁.frame
    rw [frame₄, frame₃]
    show product₁.n.epsilon = false
    rw [frame₁]
    rfl
  have operand := explored₅.operand sound left.loud
    (explored₅.mem_states.mpr ⟨_, startIs ▸ source₄⟩) (explored₅.mem_states.mpr ⟨_, target⟩)
  obtain ⟨n, t', dead, removed, removes, gone, operand', paths⟩ := operand.removeUnreachableStates
  have fresh : ∀ s ∈ product₄.n.states, ¬t.Allocated s := explored₄.fresh
  refine ⟨n, t', ?_, operand', fun s member => ?_, ?_, ?_, fun w => ?_⟩
  · unfold Tables.interProduct
    dsimp only
    rw [get₁]
    dsimp only
    rw [run₃]
    show (product₃.getState l.final r.final).2.t.removeUnreachableStates
      { (product₃.getState l.final r.final).2.n with final := (product₃.getState l.final r.final).1 } = _
    rw [get₄]
    exact removed
  · rw [removes.nfa] at member
    exact fresh s (List.mem_of_mem_filter member)
  · rw [removes.nfa]
    exact flag
  · exact (explored₅.extension sound).removesStates sound removes fun s dies => fresh s (gone s dies).1
  · have start' : n.start = start := by
      rw [removes.nfa]
      exact startIs
    have final' : n.final = final := by rw [removes.nfa]
    have known : (l.start, r.start) ∈ product₃.discovery.keys := Discovery.mem_keys.mpr ⟨start, source₃⟩
    rw [start', final', ← explored₃.path_done known, ← startIs]
    refine (paths w).trans ?_
    rw [startIs]
    refine (explored₅.path_iff sound source₄).trans ?_
    constructor
    · rintro ⟨k, member, path⟩
      obtain rfl := explored₄.state_unique member target
      exact path
    · exact fun path => ⟨_, target, path⟩

/-- What the edges from the states of an operand read when its final state has an extra loop. -/
structure Looped (t : Tables) (n : Nfa) (extra : NfaEdge) (t₀ : Tables) : Prop where
  reads : ∀ p ∈ n.states, ∀ e letter q, e ∈ t₀.srcEdges p ∧ t₀.Reads e letter q ↔
    e ∈ t.srcEdges p ∧ t.Reads e letter q ∨ e = extra ∧ p = n.final ∧ q = n.final
  fresh : ∀ s, extra ∉ t.srcEdges s

theorem AddsEdge.reads (adds : AddsEdge t s s (some .trueNode) e t') (sound : t.Sound) {e' : NfaEdge}
    {letter : Valuation} : e' ∈ t'.srcEdges p ∧ t'.Reads e' letter q ↔
      e' ∈ t.srcEdges p ∧ t.Reads e' letter q ∨ e' = e ∧ p = s ∧ q = s := by
  have other : ∀ {e'}, e' ∈ t.srcEdges p → e' ≠ e := fun member same =>
    adds.fresh (same ▸ (sound.src.mp member).1)
  have old : e' ≠ e → (t'.Reads e' letter q ↔ t.Reads e' letter q) := by
    intro different
    unfold Reads
    rw [adds.edgeExpr, adds.edgeDest, update_of_ne different, update_of_ne different]
  have new : t'.Reads e letter q ↔ q = s := by
    unfold Reads
    rw [adds.edgeExpr, adds.edgeDest, update_self, update_self]
    constructor
    · rintro ⟨b, -, -, rfl⟩
      rfl
    · rintro rfl
      exact ⟨.trueNode, rfl, rfl, rfl⟩
  have chain : e' ∈ t'.srcEdges p ↔ e' ∈ t.srcEdges p ∨ e' = e ∧ p = s := by
    rw [adds.srcEdges]
    by_cases here : p = s
    · rw [here, update_self, List.mem_cons]
      simp only [and_true]
      exact or_comm
    · rw [update_of_ne here]
      simp [here]
  rw [chain]
  constructor
  · rintro ⟨member | ⟨rfl, rfl⟩, reads⟩
    · exact .inl ⟨member, (old (other member)).mp reads⟩
    · exact .inr ⟨rfl, rfl, new.mp reads⟩
  · rintro (⟨member, reads⟩ | ⟨rfl, rfl, rfl⟩)
    · exact ⟨.inl member, (old (other member)).mpr reads⟩
    · exact ⟨.inr ⟨rfl, rfl⟩, new.mpr rfl⟩

theorem AddsEdge.operand (adds : AddsEdge t s s (some b) e t') (operand : t.Operand n) : t'.Operand n := by
  have owned := operand.owned
  refine ⟨adds.sound, fun p q arc => ?_, ?_⟩
  · rcases adds.arc.mp arc with arc | ⟨-, impossible, -⟩
    · exact operand.loud p q arc
    · cases impossible
  refine
    { nodup := owned.nodup, used := fun s inside => adds.same.allocated.mpr (owned.used s inside)
      closed := fun arc => ?_, start := owned.start, final := owned.final }
  rcases adds.arc.mp arc with arc | ⟨rfl, -, rfl⟩
  · exact owned.closed arc
  · exact Iff.rfl

theorem pair_step_iff (sound : t.Sound) {xL xR : NfaEdge} (left : Looped t l xL t₀)
    (right : Looped t r xR t₀) (insideL : p ∈ l.states) (insideR : q ∈ r.states) :
    Product.Moves t₀ (some xL) (some xR) (p, q) letter k' ↔
      PairStep t.Step t.Step l.final r.final (p, q) (some letter) k' := by
  have oldL : ∀ {e}, e ∈ t.srcEdges p → e ≠ xL := fun member same => left.fresh p (same ▸ member)
  have oldR : ∀ {e}, e ∈ t.srcEdges q → e ≠ xR := fun member same => right.fresh q (same ▸ member)
  unfold PairStep Product.Moves Product.PairReads
  simp only [sound.step_iff, Option.some.injEq]
  constructor
  · rintro ⟨eL, memberL, eR, memberR, other, readsL, readsR⟩
    rcases (left.reads p insideL _ _ _).mp ⟨memberL, readsL⟩ with ⟨memberL, readsL⟩ | ⟨rfl, waitL⟩
    · rcases (right.reads q insideR _ _ _).mp ⟨memberR, readsR⟩ with ⟨memberR, readsR⟩ | ⟨rfl, waitR⟩
      · exact .inl ⟨⟨eL, memberL, readsL⟩, ⟨eR, memberR, readsR⟩⟩
      · exact .inr (.inl ⟨⟨eL, memberL, readsL⟩, waitR⟩)
    · rcases (right.reads q insideR _ _ _).mp ⟨memberR, readsR⟩ with ⟨memberR, readsR⟩ | ⟨rfl, -⟩
      · exact .inr (.inr ⟨waitL, ⟨eR, memberR, readsR⟩⟩)
      · exact absurd ⟨rfl, rfl⟩ other
  · rintro (⟨⟨eL, memberL, readsL⟩, ⟨eR, memberR, readsR⟩⟩ | ⟨⟨eL, memberL, readsL⟩, waitR⟩ |
      ⟨waitL, ⟨eR, memberR, readsR⟩⟩)
    · obtain ⟨inL, readL⟩ := (left.reads p insideL _ _ _).mpr (.inl ⟨memberL, readsL⟩)
      obtain ⟨inR, readR⟩ := (right.reads q insideR _ _ _).mpr (.inl ⟨memberR, readsR⟩)
      exact ⟨eL, inL, eR, inR, fun both => oldL memberL both.1, readL, readR⟩
    · obtain ⟨inL, readL⟩ := (left.reads p insideL _ _ _).mpr (.inl ⟨memberL, readsL⟩)
      obtain ⟨inR, readR⟩ := (right.reads q insideR xR letter _).mpr (.inr ⟨rfl, waitR⟩)
      exact ⟨eL, inL, xR, inR, fun both => oldL memberL both.1, readL, readR⟩
    · obtain ⟨inL, readL⟩ := (left.reads p insideL xL letter _).mpr (.inr ⟨rfl, waitL⟩)
      obtain ⟨inR, readR⟩ := (right.reads q insideR _ _ _).mpr (.inl ⟨memberR, readsR⟩)
      exact ⟨xL, inL, eR, inR, fun both => oldR memberR both.2, readL, readR⟩

/-- Both final states have an extra loop. -/
structure Loops (t : Tables) (l r : Nfa) (xL xR : NfaEdge) (t₀ : Tables) : Prop where
  operandL : t₀.Operand l
  operandR : t₀.Operand r
  left : Looped t l xL t₀
  right : Looped t r xR t₀
  allocated : ∀ s, t₀.Allocated s ↔ t.Allocated s
  live : ∀ e, t₀.Live e ↔ t.Live e ∨ e = xL ∨ e = xR
  old : ∀ e, t.Live e → (e ≠ xL ∧ e ≠ xR) ∧ t₀.edgeSrc e = t.edgeSrc e ∧ t₀.edgeDest e = t.edgeDest e ∧
    t₀.edgeExpr e = t.edgeExpr e
  srcL : t₀.edgeSrc xL = l.final
  srcR : t₀.edgeSrc xR = r.final
  different : xL ≠ xR

theorem Operands.loops (operands : Operands t l r) :
    ∃ xL t₁ xR t₀, t.addEdge l.final l.final (some .trueNode) = (xL, t₁) ∧
      t₁.addEdge r.final r.final (some .trueNode) = (xR, t₀) ∧ Loops t l r xL xR t₀ := by
  obtain ⟨sound, loud, left, right, apart⟩ := operands
  have usedL := left.used _ left.final
  have usedR := right.used _ right.final
  have addsL := sound.addEdge usedL usedL (some .trueNode)
  generalize t.addEdge l.final l.final (some .trueNode) = added at addsL ⊢
  obtain ⟨xL, t₁⟩ := added
  dsimp only at addsL
  have usedR₁ := addsL.same.allocated.mpr usedR
  have addsR := addsL.sound.addEdge usedR₁ usedR₁ (some .trueNode)
  generalize second : t₁.addEdge r.final r.final (some .trueNode) = added at addsR
  obtain ⟨xR, t₀⟩ := added
  dsimp only at addsR
  refine ⟨xL, t₁, xR, t₀, rfl, second, ?_⟩
  have freshR : ¬t.Live xR := fun live => addsR.fresh ((addsL.live xR).mpr (.inl live))
  have different : xL ≠ xR := fun same => addsR.fresh ((addsL.live xR).mpr (.inr same.symm))
  refine
    { operandL := addsR.operand (addsL.operand ⟨sound, loud, left⟩)
      operandR := addsR.operand (addsL.operand ⟨sound, loud, right⟩)
      left := ⟨fun p inside e letter q => ?_, fun s member => addsL.fresh (sound.src.mp member).1⟩
      right := ⟨fun p inside e letter q => ?_, fun s member => freshR (sound.src.mp member).1⟩
      allocated := fun s => addsR.same.allocated.trans addsL.same.allocated
      live := fun e => ?_, old := fun e live => ?_, srcL := ?_, srcR := ?_, different }
  · have other : p ≠ r.final := fun same => apart p inside (same ▸ right.final)
    rw [addsR.reads addsL.sound, addsL.reads sound]
    exact or_iff_left fun waits => other waits.2.1
  · have other : p ≠ l.final := fun same => apart _ left.final (same ▸ inside)
    rw [addsR.reads addsL.sound, addsL.reads sound]
    refine or_congr_left ?_
    exact or_iff_left fun waits => other waits.2.1
  · rw [addsR.live, addsL.live, or_assoc]
  · have otherL : e ≠ xL := fun same => addsL.fresh (same ▸ live)
    have otherR : e ≠ xR := fun same => freshR (same ▸ live)
    refine ⟨⟨otherL, otherR⟩, ?_, ?_, ?_⟩
    · rw [addsR.edgeSrc, update_of_ne otherR, addsL.edgeSrc, update_of_ne otherL]
    · rw [addsR.edgeDest, update_of_ne otherR, addsL.edgeDest, update_of_ne otherL]
    · rw [addsR.edgeExpr, update_of_ne otherR, addsL.edgeExpr, update_of_ne otherL]
  · rw [addsR.edgeSrc, update_of_ne different, addsL.edgeSrc, update_self]
  · rw [addsR.edgeSrc, update_self]

theorem Loops.removed {xL xR : NfaEdge} {t₁ t₂ : Tables} (loops : Loops t l r xL xR t₀)
    (extension : Extends t₀ t₁) (removes : RemovesEdges t₁ [xL, xR] t₂) : Extends t t₂ := by
  refine ⟨fun s used => ?_, fun e live => ?_, fun e live => ?_⟩
  · exact removes.same.allocated.mpr (extension.allocated s ((loops.allocated s).mpr used))
  · obtain ⟨⟨otherL, otherR⟩, from₀, to₀, expr₀⟩ := loops.old e live
    obtain ⟨live₁, from₁, to₁, expr₁⟩ := extension.old e ((loops.live e).mpr (.inl live))
    rw [removes.edgeSrc, removes.edgeDest, removes.edgeExpr]
    exact ⟨(removes.live e).mpr ⟨live₁, by simp [otherL, otherR]⟩, from₁.trans from₀, to₁.trans to₀,
      expr₁.trans expr₀⟩
  · obtain ⟨live₁, others⟩ := (removes.live e).mp live
    rw [removes.edgeSrc, removes.edgeDest]
    rcases extension.new e live₁ with live₀ | ⟨newSrc, newDest⟩
    · rcases (loops.live e).mp live₀ with live | rfl | rfl
      · exact .inl live
      · exact absurd List.mem_cons_self others
      · exact absurd (List.mem_cons_of_mem _ List.mem_cons_self) others
    · rw [loops.allocated] at newSrc newDest
      exact .inr ⟨newSrc, newDest⟩

/-- `Build_Inter` when the lengths need not match: what is read side by side, where an operand may wait at its
final state. -/
theorem Operands.buildInter_builds (operands : Operands t l r) :
    ∃ n t', t.buildInter l r false = .ok (n, t') ∧ Builds t [] n t' ∧ n.epsilon = false ∧
      ∀ w, Path t'.Step n.start w n.final ↔
        Path (PairStep t.Step t.Step l.final r.final) (l.start, r.start) w (l.final, r.final) := by
  obtain ⟨xL, t₁, xR, t₀, addL, addR, loops⟩ := operands.loops
  obtain ⟨n, t₂, run, operand, fresh, flag, extension, paths⟩ :=
    loops.operandL.interProduct loops.operandR (some xL) (some xR)
  have liveL := (extension.old xL ((loops.live xL).mpr (.inr (.inl rfl)))).1
  have liveR := (extension.old xR ((loops.live xR).mpr (.inr (.inr rfl)))).1
  obtain ⟨t₃, run₃, removes₃⟩ := operand.sound.removeEdge liveL
  have liveR₃ : t₃.Live xR := (removes₃.live xR).mpr ⟨liveR, by simp [loops.different.symm]⟩
  obtain ⟨t₄, run₄, removes₄⟩ := removes₃.sound.removeEdge liveR₃
  have removes : RemovesEdges t₂ [xL, xR] t₄ := removes₃.trans removes₄
  refine ⟨n, t₄, ?_, ⟨removes.operand operand, fun s used _ => ⟨?_, ?_⟩⟩, flag, fun w => ?_⟩
  · unfold Tables.buildInter
    rw [if_neg Bool.false_ne_true, addL]
    dsimp only
    rw [addR]
    dsimp only
    rw [run]
    show (t₂.removeEdge xL >>= fun t => t.removeEdge xR >>= fun t => pure (n, t)) = _
    rw [run₃]
    show (t₃.removeEdge xR >>= fun t => pure (n, t)) = _
    rw [run₄]
    rfl
  · exact (loops.removed extension removes).untouched used
  · exact fun inside => fresh s inside ((loops.allocated s).mpr used)
  · have arcs : ∀ s ∈ n.states, ∀ x q, t₄.Arc s x q ↔ t₂.Arc s x q := by
      intro s inside x q
      have kept : ∀ {e}, t₂.edgeSrc e = s → e ∉ [xL, xR] := by
        intro e leaves extra
        have here : t₀.Allocated s := by
          rw [List.mem_cons, List.mem_singleton] at extra
          rcases extra with rfl | rfl
          · have live := (loops.live e).mpr (.inr (.inl rfl))
            rw [← leaves, (extension.old e live).2.1]
            exact loops.operandL.sound.srcAllocated live
          · have live := (loops.live e).mpr (.inr (.inr rfl))
            rw [← leaves, (extension.old e live).2.1]
            exact loops.operandL.sound.srcAllocated live
        exact fresh s inside here
      rw [removes.arc]
      constructor
      · rintro ⟨e, ⟨live, -⟩, ends⟩
        exact ⟨e, live, ends⟩
      · rintro ⟨e, live, leaves, ends⟩
        exact ⟨e, ⟨live, kept leaves⟩, leaves, ends⟩
    rw [operand.owned.path_congr arcs operand.owned.start, paths]
    have inside : l.start ∈ l.states ∧ r.start ∈ r.states := ⟨operands.left.start, operands.right.start⟩
    refine (@Path.congr_inside _ _ _ _ (l.start, r.start) (l.final, r.final) w
      (fun k => k.1 ∈ l.states ∧ k.2 ∈ r.states) inside ?_ ?_).symm
    · rintro p o q ⟨hereL, hereR⟩ (⟨moveL, moveR⟩ | ⟨moveL, -, there⟩ | ⟨⟨-, there⟩, moveR⟩)
      · exact ⟨operands.left.step_mem hereL moveL, operands.right.step_mem hereR moveR⟩
      · exact ⟨operands.left.step_mem hereL moveL, there ▸ operands.right.final⟩
      · exact ⟨there ▸ operands.left.final, operands.right.step_mem hereR moveR⟩
    · rintro p o q ⟨hereL, hereR⟩
      cases o with
      | none =>
        exact iff_of_false (PairStep.loud operands.loud.step operands.loud.step p q) (Discovery.MoveStep.loud p q)
      | some letter =>
        rw [Discovery.MoveStep.iff]
        exact (pair_step_iff operands.sound loops.left loops.right hereL hereR).symm

/-- L accepts the word, and R accepts a prefix of it. -/
def AcceptsWithin (t : Tables) (l r : Nfa) (w : List Valuation) : Prop :=
  t.Accepts l w ∧ ∃ u, u <+: w ∧ t.Accepts r u

/-- The word is read by both operands side by side, where an operand may wait at its final state. -/
def ReadsTogether (t : Tables) (l r : Nfa) (w : List Valuation) : Prop :=
  Path (PairStep t.Step t.Step l.final r.final) (l.start, r.start) w (l.final, r.final)

/-- The word is read by both operands side by side, and R waits at its final state for a letter and leaves the
final state with the next one. -/
def WaitsAndLeaves (t : Tables) (l r : Nfa) (w : List Valuation) : Prop :=
  Resumes t.Step t.Step l.final r.final (l.start, r.start) w

theorem WaitsAndLeaves.leaves (resumes : t.WaitsAndLeaves l r w) : ∃ x q, t.Arc r.final x q := by
  obtain ⟨u, p, a, p', b, last, v, -, -, -, ⟨c, leaves, -⟩, -⟩ := resumes
  exact ⟨_, _, leaves⟩

end Tables

end Ghdl.Psl
