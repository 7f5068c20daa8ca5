import Ghdl.Psl.Constants
import Ghdl.Psl.Determinize
import Ghdl.Psl.Discovery

/-!
# Successors of a set of states

The loop of `Determinize_1` over the edges from a set of states, and `Build_Arcs`, which tries every
combination of the conditions: with each letter that does not lead to the final state, one combination is left.
-/

namespace Ghdl.Psl

open Automata Fallible

namespace Tables

variable {t : Tables} {n : Nfa} {final d : Nat} {es es' : List NfaEdge} {e : NfaEdge} {succ : Successors}
  {ss : List NfaState} {v v' : BoolVector} {letter : Valuation} {s p : NfaState} {b : BoolNode}

/-- The expression of the edge is true in the letter. -/
def EdgeHolds (t : Tables) (e : NfaEdge) (letter : Valuation) : Prop :=
  ∃ b, t.edgeExpr e = some b ∧ Holds b letter

/-- The label of the state to which the edge leads. -/
def target (t : Tables) (e : NfaEdge) : Nat := t.stateLabel (t.edgeDest e)

/-- What is known when the edges ES have been met. -/
structure Gathers (t : Tables) (final : Nat) (es : List NfaEdge) (succ : Successors) : Prop where
  nodup : succ.states.Nodup
  states : ∀ d, d ∈ succ.states ↔ d ≠ final ∧ ∃ e ∈ es, t.target e = d
  known : ∀ d, d ∈ succ.states ↔ succ.exprs d ≠ none
  exprs : ∀ d b, succ.exprs d = some b → b.Tidy ∧
    ∀ letter, Holds b letter ↔ ∃ e ∈ es, t.target e = d ∧ t.EdgeHolds e letter
  expr : ∀ b, succ.expr = some b → b.Tidy ∧
    ∀ letter, Holds b letter ↔ ¬∃ e ∈ es, t.target e = final ∧ t.EdgeHolds e letter
  none : succ.expr = none ↔ ¬∃ e ∈ es, t.target e = final

theorem Gathers.nil : Gathers t final [] { exprs := fun _ => .none, states := [], expr := .none } where
  nodup := List.nodup_nil
  states d := by simp
  known d := by simp
  exprs d b impossible := by cases impossible
  expr b impossible := by cases impossible
  none := by simp

theorem edgeHolds_iff (expr : t.edgeExpr e = some b) : t.EdgeHolds e letter ↔ Holds b letter := by
  unfold EdgeHolds
  rw [expr]
  simp

theorem exists_mem_snoc {P : NfaEdge → Prop} : (∃ e' ∈ es ++ [e], P e') ↔ (∃ e' ∈ es, P e') ∨ P e := by
  constructor
  · rintro ⟨e', member, holds⟩
    rcases List.mem_append.mp member with member | member
    · exact .inl ⟨e', member, holds⟩
    · rw [List.mem_singleton.mp member] at holds
      exact .inr holds
  · rintro (⟨e', member, holds⟩ | holds)
    · exact ⟨e', List.mem_append_left _ member, holds⟩
    · exact ⟨e, List.mem_append_right _ (List.mem_singleton_self e), holds⟩

theorem Gathers.toFinal (gathers : Gathers t final es succ) (expr : t.edgeExpr e = some b) (tidy : b.Tidy)
    (here : t.target e = final) : Gathers t final (es ++ [e])
      { succ with
        expr := match succ.expr with
          | .none => some (buildBoolNot b)
          | some expr => some (buildBoolAnd expr (buildBoolNot b)) } := by
  have edge : ∀ letter, t.EdgeHolds e letter ↔ Holds b letter := fun _ => edgeHolds_iff expr
  have negated : ∀ letter, Holds (buildBoolNot b) letter ↔ ¬Holds b letter := by
    intro letter
    unfold Holds
    rw [eval_buildBoolNot]
    simp
  refine
    { nodup := gathers.nodup, states := fun d => ?_, known := gathers.known
      exprs := fun d c known => ?_, expr := fun c known => ?_, none := ?_ }
  · show d ∈ succ.states ↔ _
    rw [exists_mem_snoc, gathers.states, here]
    refine and_congr_right fun other => (or_iff_left ?_).symm
    exact fun same => other same.symm
  · have known : succ.exprs d = some c := known
    obtain ⟨tidyC, holds⟩ := gathers.exprs d c known
    refine ⟨tidyC, fun letter => (holds letter).trans ?_⟩
    have other : d ≠ final := by
      have member := (gathers.known d).mpr (by simp [known])
      exact ((gathers.states d).mp member).1
    rw [exists_mem_snoc, here]
    exact (or_iff_left fun same => other same.1.symm).symm
  · cases before : succ.expr with
    | none =>
      rw [before] at known
      obtain rfl := Option.some.inj known
      refine ⟨buildBoolNot_tidy tidy, fun letter => ?_⟩
      have nothing := gathers.none.mp before
      rw [negated, exists_mem_snoc, edge]
      have noOld : ¬∃ e' ∈ es, t.target e' = final ∧ t.EdgeHolds e' letter := by
        rintro ⟨e', member, there, -⟩
        exact nothing ⟨e', member, there⟩
      simp [noOld, here]
    | some c₀ =>
      rw [before] at known
      obtain rfl := Option.some.inj known
      obtain ⟨tidyC, holds⟩ := gathers.expr c₀ before
      refine ⟨buildBoolAnd_tidy tidyC (buildBoolNot_tidy tidy), fun letter => ?_⟩
      have both : Holds (buildBoolAnd c₀ (buildBoolNot b)) letter ↔
          Holds c₀ letter ∧ Holds (buildBoolNot b) letter := by
        unfold Holds
        rw [eval_buildBoolAnd, Bool.and_eq_true]
      rw [both, holds, negated, exists_mem_snoc, edge, not_or]
      simp [here]
  · rw [exists_mem_snoc]
    cases succ.expr with
    | none | some c => simp [here]

/-- The condition to the state of the edge is replaced. -/
theorem Gathers.exprs_snoc {c' : BoolNode} (gathers : Gathers t final es succ) (tidy : c'.Tidy)
    (value : ∀ letter, Holds c' letter ↔
      (∃ e' ∈ es, t.target e' = t.target e ∧ t.EdgeHolds e' letter) ∨ t.EdgeHolds e letter)
    (same : Function.update succ.exprs (t.target e) (some c') d = some c) :
    c.Tidy ∧ ∀ letter, Holds c letter ↔ ∃ e' ∈ es ++ [e], t.target e' = d ∧ t.EdgeHolds e' letter := by
  by_cases here : d = t.target e
  · rw [here, Function.update_self] at same
    obtain rfl := Option.some.inj same
    refine ⟨tidy, fun letter => ?_⟩
    rw [value, exists_mem_snoc, here]
    exact or_congr Iff.rfl (and_iff_right rfl).symm
  rw [Function.update_of_ne here] at same
  obtain ⟨tidyC, holds⟩ := gathers.exprs d c same
  refine ⟨tidyC, fun letter => (holds letter).trans ?_⟩
  rw [exists_mem_snoc]
  exact (or_iff_left fun impossible => here impossible.1.symm).symm

section Other

variable (there : t.target e ≠ final)

include there

theorem finals_snoc : (∃ e' ∈ es ++ [e], t.target e' = final) ↔ ∃ e' ∈ es, t.target e' = final := by
  rw [exists_mem_snoc]
  exact or_iff_left there

theorem holds_snoc : (∃ e' ∈ es ++ [e], t.target e' = final ∧ t.EdgeHolds e' letter) ↔
      ∃ e' ∈ es, t.target e' = final ∧ t.EdgeHolds e' letter := by
  rw [exists_mem_snoc]
  exact or_iff_left fun impossible => there impossible.1

theorem Gathers.toNew (gathers : Gathers t final es succ) (expr : t.edgeExpr e = some b) (tidy : b.Tidy)
    (unknown : succ.exprs (t.target e) = .none) : Gathers t final (es ++ [e])
      { succ with
        exprs := Function.update succ.exprs (t.target e) (some b)
        states := succ.states ++ [t.target e] } := by
  have outside : t.target e ∉ succ.states := fun member => (gathers.known _).mp member unknown
  refine
    { nodup := ?_, states := fun d => ?_, known := fun d => ?_, exprs := fun d c same => ?_
      expr := fun c same => ?_, none := ?_ }
  · refine List.Nodup.append gathers.nodup (List.nodup_singleton _) fun d member same => ?_
    rw [List.mem_singleton.mp same] at member
    exact outside member
  · show d ∈ succ.states ++ [t.target e] ↔ _
    rw [List.mem_append, List.mem_singleton, gathers.states, exists_mem_snoc]
    constructor
    · rintro (⟨other, found⟩ | rfl)
      · exact ⟨other, .inl found⟩
      · exact ⟨there, .inr rfl⟩
    · rintro ⟨other, found | same⟩
      · exact .inl ⟨other, found⟩
      · exact .inr same.symm
  · show d ∈ succ.states ++ [t.target e] ↔ Function.update succ.exprs (t.target e) (some b) d ≠ .none
    rw [List.mem_append, List.mem_singleton, gathers.known]
    by_cases same : d = t.target e
    · rw [same, Function.update_self]
      simp
    · rw [Function.update_of_ne same]
      simp [same]
  · refine gathers.exprs_snoc tidy (fun letter => ?_) same
    have fresh : ¬∃ e' ∈ es, t.target e' = t.target e ∧ t.EdgeHolds e' letter := by
      rintro ⟨e', member, same, -⟩
      exact outside ((gathers.states _).mpr ⟨there, e', member, same⟩)
    rw [or_iff_right fresh, edgeHolds_iff expr]
  · obtain ⟨tidyC, holds⟩ := gathers.expr c same
    exact ⟨tidyC, fun letter => (holds letter).trans (not_congr (holds_snoc there).symm)⟩
  · exact gathers.none.trans (not_congr (finals_snoc there).symm)

theorem Gathers.toKnown {c₀ : BoolNode} (gathers : Gathers t final es succ) (expr : t.edgeExpr e = some b)
    (tidy : b.Tidy) (known : succ.exprs (t.target e) = some c₀) : Gathers t final (es ++ [e])
      { succ with exprs := Function.update succ.exprs (t.target e) (some (buildBoolOr c₀ b)) } := by
  have inside : t.target e ∈ succ.states := (gathers.known _).mpr (by simp [known])
  obtain ⟨tidy₀, holds₀⟩ := gathers.exprs _ c₀ known
  refine
    { nodup := gathers.nodup, states := fun d => ?_, known := fun d => ?_, exprs := fun d c same => ?_
      expr := fun c same => ?_, none := ?_ }
  · show d ∈ succ.states ↔ _
    rw [gathers.states, exists_mem_snoc]
    refine and_congr_right fun other => ⟨.inl, ?_⟩
    rintro (found | same)
    · exact found
    · rw [← same]
      exact ((gathers.states _).mp inside).2
  · show d ∈ succ.states ↔ Function.update succ.exprs (t.target e) _ d ≠ .none
    rw [gathers.known]
    by_cases same : d = t.target e
    · rw [same, Function.update_self, known]
      simp
    · rw [Function.update_of_ne same]
  · refine gathers.exprs_snoc (buildBoolOr_tidy tidy₀ tidy) (fun letter => ?_) same
    rw [← holds₀, edgeHolds_iff expr]
    unfold Holds
    rw [eval_buildBoolOr, Bool.or_eq_true]
  · obtain ⟨tidyC, holds⟩ := gathers.expr c same
    exact ⟨tidyC, fun letter => (holds letter).trans (not_congr (holds_snoc there).symm)⟩
  · exact gathers.none.trans (not_congr (finals_snoc there).symm)

end Other

theorem Gathers.add (gathers : Gathers t final es succ) (expr : t.edgeExpr e = some b) (tidy : b.Tidy) :
    ∃ succ', t.addSuccessor final succ e = .ok succ' ∧ Gathers t final (es ++ [e]) succ' := by
  unfold addSuccessor
  rw [expr]
  dsimp only
  by_cases here : t.stateLabel (t.edgeDest e) = final
  · exact ⟨_, if_pos here, gathers.toFinal expr tidy here⟩
  · rw [if_neg here]
    cases known : succ.exprs (t.stateLabel (t.edgeDest e)) with
    | none => exact ⟨_, rfl, gathers.toNew here expr tidy known⟩
    | some c => exact ⟨_, rfl, gathers.toKnown here expr tidy known⟩

/-- The edges have a condition, which is a constant or has none. -/
def TidyEdges (t : Tables) (es : List NfaEdge) : Prop := ∀ e ∈ es, ∃ b, t.edgeExpr e = some b ∧ b.Tidy

theorem Gathers.edges (gathers : Gathers t final es succ) (tidy : t.TidyEdges es') :
    ∃ succ', es'.foldlM (t.addSuccessor final) succ = .ok succ' ∧ Gathers t final (es ++ es') succ' := by
  induction es' generalizing es succ with
  | nil => exact ⟨succ, rfl, by rwa [List.append_nil]⟩
  | cons e es' ih =>
    obtain ⟨b, expr, tidyB⟩ := tidy e List.mem_cons_self
    obtain ⟨succ₁, run₁, gathers₁⟩ := gathers.add expr tidyB
    obtain ⟨succ', run', gathers'⟩ := ih gathers₁ fun e member => tidy e (List.mem_cons_of_mem _ member)
    refine ⟨succ', ?_, ?_⟩
    · rw [List.foldlM_cons, run₁]
      exact run'
    · rwa [List.append_assoc] at gathers'

theorem Gathers.chains (gathers : Gathers t final es succ) (ss : List NfaState)
    (tidy : ∀ s ∈ ss, t.TidyEdges (t.srcEdges s)) :
    ∃ succ', ss.foldlM (fun succ s => (t.srcEdges s).foldlM (t.addSuccessor final) succ) succ = .ok succ' ∧
      Gathers t final (es ++ ss.flatMap t.srcEdges) succ' := by
  induction ss generalizing es succ with
  | nil => exact ⟨succ, rfl, by simpa using gathers⟩
  | cons s ss ih =>
    obtain ⟨succ₁, run₁, gathers₁⟩ := gathers.edges (tidy s List.mem_cons_self)
    obtain ⟨succ', run', gathers'⟩ := ih gathers₁ fun s member => tidy s (List.mem_cons_of_mem _ member)
    refine ⟨succ', ?_, ?_⟩
    · rw [List.foldlM_cons, run₁]
      exact run'
    · rwa [List.append_assoc, ← List.flatMap_cons] at gathers'

/-- The errors of `Reduce`: there are too many terms or too many primes. -/
def QmLimit (error : PslError) : Prop := error = .programError ∨ error = .constraintError

theorem joinPrimes_error {conjunction : Bool} {l r : List Prime} :
    Yields QmLimit (fun _ => True) (joinPrimes conjunction l r) := by
  unfold joinPrimes buildPrimesAnd buildPrimesOr
  cases conjunction with
  | true =>
    by_cases large : maxPrimes < l.length * r.length
    · simp only [if_pos large, if_true]
      exact .inr rfl
    · simp only [if_neg large, if_true]
      exact trivial
  | false =>
    by_cases large : maxPrimes < l.length + r.length
    · simp only [if_pos large, Bool.false_eq_true, if_false]
      exact .inr rfl
    · simp only [if_neg large, Bool.false_eq_true, if_false]
      exact trivial

theorem buildOperands_error {conjunction : Bool} {left : Outcome (List Prime × List BoolNode)}
    {right : List BoolNode → Outcome (List Prime × List BoolNode)} (first : Yields QmLimit (fun _ => True) left)
    (second : ∀ terms, Yields QmLimit (fun _ => True) (right terms)) :
    Yields QmLimit (fun _ => True) (buildOperands conjunction left right) := by
  unfold buildOperands
  refine first.bind fun l _ => (second l.2).bind fun r _ => ?_
  exact joinPrimes_error.bind fun res _ => trivial

theorem termIndex_error (terms : List BoolNode) (b : BoolNode) :
    Yields QmLimit (fun _ => True) (termIndex terms b) := by
  unfold termIndex
  cases terms.idxOf? b with
  | some index => exact trivial
  | none =>
    by_cases full : terms.length = maxTerms
    · simp only [if_pos full]
      exact .inl rfl
    · simp only [if_neg full]
      exact trivial

/-- `Build_Primes` fails at the limits of `psl-qm` only. -/
theorem buildPrimes_error (terms : List BoolNode) (b : BoolNode) (negate : Bool) :
    Yields QmLimit (fun _ => True) (buildPrimes terms b negate) := by
  induction b generalizing terms negate with
  | hdlExpr expr | eos => exact (termIndex_error terms _).bind fun found _ => trivial
  | trueNode | falseNode => exact trivial
  | notBool origin boolean ih => exact ih terms (!negate)
  | andBool origin left right ihl ihr | orBool origin left right ihl ihr =>
    exact buildOperands_error (ihl terms negate) fun terms => ihr terms negate
  | impBool origin left right ihl ihr =>
    exact buildOperands_error (ihl terms (!negate)) fun terms => ihr terms negate

/-- `Reduce` keeps the value of a tidy node, or it fails at the limits of `psl-qm`. -/
theorem reduce_yields (known : TermsOk t.terms) (tidy : b.Tidy) :
    Yields QmLimit (fun reduced => (∀ letter, Holds reduced.1 letter ↔ Holds b letter) ∧
      ∃ terms, TermsOk terms ∧ reduced.2 = { t with terms }) (t.reduce b) := by
  have error : Yields QmLimit (fun _ => True) (t.reduce b) := by
    unfold reduce
    exact (buildPrimes_error t.terms b false).bind fun result _ => trivial
  cases run : t.reduce b with
  | error e =>
    rw [run] at error
    exact error
  | ok reduced =>
    obtain ⟨same, terms⟩ := Tables.reduce_spec known tidy.polar run
    refine ⟨fun letter => ?_, terms⟩
    unfold Holds
    rw [same]

/-- The conditions that hold in the letter choose a vector. -/
def chosen (exprs : Nat → Option BoolNode) (letter : Valuation) : List Nat → BoolVector → BoolVector
  | [], v => v
  | s :: states, v =>
    match exprs s with
    | .none => chosen exprs letter states v
    | some e => chosen exprs letter states (if e.eval letter then v.set s true else v)

variable {exprs : Nat → Option BoolNode} {states : List Nat}

theorem chosen_spec (bound : ∀ s ∈ states, s < v.length) : (chosen exprs letter states v).length = v.length ∧
      ∀ d, (chosen exprs letter states v).getD d false = true ↔
        v.getD d false = true ∨ d ∈ states ∧ ∃ e, exprs d = some e ∧ Holds e letter := by
  induction states generalizing v with
  | nil => simp [chosen]
  | cons s states ih =>
    have small := bound s List.mem_cons_self
    have others := fun d member => bound d (List.mem_cons_of_mem s member)
    unfold chosen
    cases known : exprs s with
    | none =>
      obtain ⟨length, bits⟩ := ih others
      refine ⟨length, fun d => (bits d).trans (or_congr Iff.rfl ?_)⟩
      by_cases same : d = s
      · simp [same, known]
      · simp [same]
    | some e =>
      dsimp only
      by_cases holds : e.eval letter = true
      · rw [if_pos holds]
        have others' : ∀ d ∈ states, d < (v.set s true).length := by simpa using others
        obtain ⟨length, bits⟩ := ih others'
        refine ⟨by simpa using length, fun d => (bits d).trans ?_⟩
        by_cases same : d = s
        · subst same
          have here : ∃ e', exprs d = some e' ∧ Holds e' letter := ⟨e, known, holds⟩
          simp [List.getD_eq_getElem?_getD, small, here]
        · simp [List.getD_eq_getElem?_getD, same, Ne.symm same]
      rw [if_neg holds]
      obtain ⟨length, bits⟩ := ih others
      refine ⟨length, fun d => (bits d).trans (or_congr Iff.rfl ?_)⟩
      by_cases same : d = s
      · have never : ¬∃ e', exprs s = some e' ∧ Holds e' letter := by
          rintro ⟨e', same', holds'⟩
          rw [known] at same'
          obtain rfl := Option.some.inj same'
          exact holds holds'
        simp [same, never]
      · simp [same]

end Tables

namespace Deter

open Tables

/-- The leaves as a table of keys. -/
def discovery (deter : Deter) : Discovery BoolVector where
  n := deter.n
  t := deter.t
  table := deter.leaves
  todo := deter.stack.map Prod.fst

/-- The terms are in order, and the leaves that are chained are leaves. -/
structure Good (deter : Deter) : Prop where
  terms : TermsOk deter.t.terms
  stack : ∀ leaf ∈ deter.stack, leaf ∈ deter.leaves

variable {t₀ : Tables} {move : BoolVector → Valuation → BoolVector → Prop} {deter deter' : Deter}
  {k v : BoolVector} {state : NfaState} {exprs : Nat → Option BoolNode} {states : List Nat}
  {expr : Option BoolNode} {region : BoolVector → Prop}

theorem addVector_find (deter : Deter) (v : BoolVector) : (deter.addVector v).1 = (deter.discovery.find v).1 ∧
      (deter.addVector v).2.discovery = (deter.discovery.find v).2 := by
  unfold addVector Discovery.find discovery
  cases deter.leaves.find? fun leaf => leaf.1 = v with
  | some leaf | none => exact ⟨rfl, rfl⟩

theorem Good.addVector (good : deter.Good) (v : BoolVector) : (deter.addVector v).2.Good := by
  unfold Deter.addVector
  cases deter.leaves.find? fun leaf => leaf.1 = v with
  | some leaf => exact good
  | none =>
    obtain ⟨last, free, same⟩ := newState_eq deter.t
    refine ⟨?_, fun leaf member => ?_⟩
    · show TermsOk deter.t.newState.2.terms
      rw [same]
      exact good.terms
    · rcases List.mem_cons.mp member with rfl | member
      · exact List.mem_append_right _ (List.mem_singleton_self _)
      · exact List.mem_append_left _ (good.stack leaf member)

theorem addVector_builds (good : deter.Good) (explored : Discovery.Explored t₀ move deter.discovery)
    (inside : region v) : ∃ s deter', deter.addVector v = (s, deter') ∧ deter'.Good ∧
      Discovery.Explored t₀ move deter'.discovery ∧ (v, s) ∈ deter'.leaves ∧
        Discovery.Grew region deter.discovery deter'.discovery := by
  obtain ⟨explored', member, grew⟩ := explored.find inside
  obtain ⟨found, same⟩ := addVector_find deter v
  rw [← same, ← found] at member
  rw [← same] at explored' grew
  exact ⟨_, _, rfl, good.addVector v, explored', member, grew⟩

/-- The letters of the arcs that `Build_Arcs` adds from a vector, and where they lead. -/
def Arcs (exprs : Nat → Option BoolNode) (states : List Nat) (expr : Option BoolNode) (v : BoolVector)
    (letter : Valuation) (v' : BoolVector) : Prop :=
  (∀ b, expr = some b → Holds b letter) ∧ v' = chosen exprs letter states v

/-- What `Build_Arcs` does. -/
def BuildsArcs (t₀ : Tables) (region : BoolVector → Prop) (move : BoolVector → Valuation → BoolVector → Prop)
    (k : BoolVector) (arcs : Valuation → BoolVector → Prop) (deter deter' : Deter) : Prop :=
  deter'.Good ∧
    Discovery.Explored t₀ (fun x letter x' => move x letter x' ∨ x = k ∧ arcs letter x') deter'.discovery ∧
      Discovery.Grew region deter.discovery deter'.discovery

theorem BuildsArcs.none {arcs : Valuation → BoolVector → Prop} (good : deter.Good)
    (explored : Discovery.Explored t₀ move deter.discovery) (never : ∀ letter x, ¬arcs letter x) :
    BuildsArcs t₀ region move k arcs deter deter := by
  refine ⟨good, explored.congr fun x letter x' => ?_, .refl _ _⟩
  exact or_iff_left fun impossible => never letter x' impossible.2

/-- The combination that is left: an arc is added unless its condition is false. -/
theorem buildArcs_leaf {b : BoolNode} (good : deter.Good)
    (explored : Discovery.Explored t₀ move deter.discovery) (tidy : b.Tidy) (inside : region v)
    (source : (k, state) ∈ deter.leaves) : Yields QmLimit (BuildsArcs t₀ region move k (Arcs exprs [] (some b) v) deter)
      (buildArcs exprs state [] (some b) v deter) := by
  have iff : ∀ letter x, Arcs exprs [] (some b) v letter x ↔ Holds b letter ∧ x = v := by
    intro letter x
    unfold Arcs
    simp [chosen]
  unfold buildArcs
  dsimp only
  by_cases false : b = .falseNode
  · subst false
    rw [if_pos rfl]
    refine BuildsArcs.none good explored fun letter x arc => ?_
    have holds := ((iff letter x).mp arc).1
    cases holds
  rw [if_neg false]
  refine (reduce_yields good.terms tidy).bind ?_
  rintro ⟨reduced, t⟩ ⟨same, terms, known, rfl⟩
  have good₁ : Good { deter with t := { deter.t with terms } } := ⟨known, good.stack⟩
  have explored₁ : Discovery.Explored t₀ move
      (discovery { deter with t := { deter.t with terms } }) := explored.withTerms terms
  dsimp only
  by_cases never : reduced = .falseNode
  · rw [if_pos never]
    have nothing : ∀ letter x, ¬Arcs exprs [] (some b) v letter x := by
      intro letter x arc
      have holds := (same letter).mpr ((iff letter x).mp arc).1
      rw [never] at holds
      cases holds
    obtain ⟨good₂, explored₂, grew⟩ := @BuildsArcs.none _ _ _ k region _ good₁ explored₁ nothing
    exact ⟨good₂, explored₂, grew.grown, grew.frame⟩
  rw [if_neg never]
  obtain ⟨s, deter₂, add, good₂, explored₂, member, grew⟩ := addVector_builds good₁ explored₁ inside
  rw [add]
  have source₂ : (k, state) ∈ deter₂.discovery.table := grew.mem_table source
  obtain ⟨last, free, sameTerms⟩ := newEdge_eq deter₂.t
  refine ⟨⟨?_, good₂.stack⟩, (explored₂.link source₂ member reduced).congr fun x letter x' => ?_,
    ⟨grew.grown, grew.frame⟩⟩
  · show TermsOk deter₂.t.newEdge.2.terms
    rw [sameTerms]
    exact good₂.terms
  · rw [iff, same]

theorem arcs_cons {s : Nat} {e yes no : BoolNode} {letter : Valuation} {x : BoolVector} (known : exprs s = some e)
    (first : Holds yes letter ↔ Holds e letter ∧ ∀ b, expr = some b → Holds b letter)
    (second : Holds no letter ↔ ¬Holds e letter ∧ ∀ b, expr = some b → Holds b letter) :
    Arcs exprs (s :: states) expr v letter x ↔
      Arcs exprs states (some yes) (v.set s true) letter x ∨ Arcs exprs states (some no) v letter x := by
  have next : chosen exprs letter (s :: states) v =
      chosen exprs letter states (if e.eval letter then v.set s true else v) := by
    rw [chosen, known]
  have alone : ∀ {c : BoolNode}, (∀ b, some c = some b → Holds b letter) ↔ Holds c letter := by
    intro c
    simp
  unfold Arcs
  rw [alone, alone, first, second, next]
  by_cases holds : Holds e letter
  · have holds' : e.eval letter = true := holds
    rw [if_pos holds']
    simp [holds]
  · have holds' : ¬e.eval letter = true := holds
    rw [if_neg holds']
    simp [holds]

theorem BuildsArcs.trans {arcs₁ arcs₂ arcs : Valuation → BoolVector → Prop} {deter₁ : Deter}
    (first : BuildsArcs t₀ region move k arcs₁ deter deter₁)
    (second : BuildsArcs t₀ region (fun x letter x' => move x letter x' ∨ x = k ∧ arcs₁ letter x') k arcs₂
      deter₁ deter') (same : ∀ letter x, arcs letter x ↔ arcs₁ letter x ∨ arcs₂ letter x) :
    BuildsArcs t₀ region move k arcs deter deter' := by
  obtain ⟨-, -, grew₁⟩ := first
  obtain ⟨good, explored, grew₂⟩ := second
  refine ⟨good, explored.congr fun x letter x' => ?_, grew₁.trans grew₂⟩
  rw [same, or_assoc, ← and_or_left]

/-- `Build_Arcs` adds an arc for every combination of the conditions that can be true. -/
theorem buildArcs_builds (region : BoolVector → Prop) (closed : ∀ v s, region v → region (v.set s true))
    (known : ∀ s ∈ states, ∃ e, exprs s = some e ∧ e.Tidy) (tidy : ∀ b, expr = some b → b.Tidy)
    (something : states = [] → expr ≠ none) (good : deter.Good)
    (explored : Discovery.Explored t₀ move deter.discovery) (inside : region v) (source : (k, state) ∈ deter.leaves) :
    Yields QmLimit (BuildsArcs t₀ region move k (Arcs exprs states expr v) deter)
      (buildArcs exprs state states expr v deter) := by
  induction states generalizing expr v deter move with
  | nil =>
    obtain ⟨b, rfl⟩ := Option.ne_none_iff_exists'.mp (something rfl)
    exact buildArcs_leaf good explored (tidy b rfl) inside source
  | cons s states ih =>
    obtain ⟨e, isE, tidyE⟩ := known s List.mem_cons_self
    have others := fun s member => known s (List.mem_cons_of_mem _ member)
    have notE : ∀ letter, Holds (buildBoolNot e) letter ↔ ¬Holds e letter := by
      intro letter
      unfold Holds
      rw [eval_buildBoolNot]
      simp
    -- Both calls, one after the other.
    have both : ∀ {yes no : BoolNode}, yes.Tidy → no.Tidy →
        (∀ letter, Holds yes letter ↔ Holds e letter ∧ ∀ b, expr = some b → Holds b letter) →
        (∀ letter, Holds no letter ↔ ¬Holds e letter ∧ ∀ b, expr = some b → Holds b letter) →
          Yields QmLimit (BuildsArcs t₀ region move k (Arcs exprs (s :: states) expr v) deter)
            (buildArcs exprs state states (some yes) (v.set s true) deter >>=
              buildArcs exprs state states (some no) v) := by
      intro yes no tidyYes tidyNo first second
      refine (ih others (fun b same => Option.some.inj same ▸ tidyYes) (fun _ => by simp) good explored
        (closed v s inside) source).bind fun deter₁ builds₁ => ?_
      obtain ⟨good₁, explored₁, grew₁⟩ := id builds₁
      refine (ih others (fun b same => Option.some.inj same ▸ tidyNo) (fun _ => by simp) good₁ explored₁
        inside (grew₁.mem_table source)).mono fun deter₂ builds₂ => ?_
      exact builds₁.trans builds₂ fun letter x => arcs_cons isE (first letter) (second letter)
    unfold buildArcs
    rw [isE]
    cases expr with
    | none =>
      refine both tidyE (buildBoolNot_tidy tidyE) (fun letter => ?_) (fun letter => ?_)
      · simp
      · rw [notE]
        simp
    | some b =>
      have tidyB := tidy b rfl
      dsimp only
      by_cases false : b = .falseNode
      · rw [if_pos false]
        refine BuildsArcs.none good explored fun letter x arc => ?_
        have holds := arc.1 b rfl
        rw [false] at holds
        cases holds
      rw [if_neg false]
      have conjunction : ∀ c letter, Holds (buildBoolAnd c b) letter ↔ Holds c letter ∧ Holds b letter := by
        intro c letter
        unfold Holds
        rw [eval_buildBoolAnd, Bool.and_eq_true]
      refine both (buildBoolAnd_tidy tidyE tidyB) (buildBoolAnd_tidy (buildBoolNot_tidy tidyE) tidyB)
        (fun letter => ?_) (fun letter => ?_)
      · rw [conjunction]
        simp
      · rw [conjunction, notE]
        simp

end Deter

end Ghdl.Psl
