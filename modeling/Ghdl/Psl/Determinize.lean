import Ghdl.Psl.Qm

/-!
# Determinization

`Labelize_States` of `psl-nfas` and the package `Determinize` of `psl-build`. A set of states of the automaton
is a vector of booleans, one for each label. The tree of vectors is the list of its leaves here: each leaf
has its vector and its state in the result, and the chained leaves are the vectors that are not handled yet.
-/

namespace Ghdl.Psl

open Function

/-- `Bool_Vector`. -/
abbrev BoolVector := List Bool

/-- The automaton that is built, the leaves of the tree, and the leaves that are not handled yet. -/
structure Deter where
  n : Nfa
  t : Tables
  leaves : List (BoolVector × NfaState)
  stack : List (BoolVector × NfaState)

/-- The expressions to each label (`Exprs`), the labels that have one (`States`), and the condition that no
edge to the final state is taken (`Expr`). -/
structure Successors where
  exprs : Nat → Option BoolNode
  states : List Nat
  expr : Option BoolNode

namespace Tables

/-- The loop of `Labelize_States`: the next label is counted. -/
def labelizeState (n : Nfa) (state : Tables × Nat) (s : NfaState) : Tables × Nat :=
  if s ≠ n.start ∧ s ≠ n.final then
    ({ state.1 with stateLabel := update state.1.stateLabel s state.2 }, state.2 + 1)
  else state

/-- `Labelize_States`. -/
def labelizeStates (t : Tables) (n : Nfa) : Tables × Nat :=
  let t := { t with stateLabel := update t.stateLabel n.start 0 }
  let (t, nbrStates) := n.states.foldl (labelizeState n) (t, 1)
  ({ t with stateLabel := update t.stateLabel n.final nbrStates }, nbrStates + 1)

/-- The body of the loop over the edges of a state of the vector. -/
def addSuccessor (t : Tables) (final : Nat) (succ : Successors) (e : NfaEdge) : Outcome Successors :=
  let d := t.stateLabel (t.edgeDest e)
  match t.edgeExpr e with
  -- `Build_Bool_Not` or `Build_Bool_Or` of a null node.
  | none => .error .programError
  | some edgeExpr =>
    if d = final then
      .ok { succ with
        expr := match succ.expr with
          | none => some (buildBoolNot edgeExpr)
          | some expr => some (buildBoolAnd expr (buildBoolNot edgeExpr)) }
    else
      match succ.exprs d with
      | none =>
        .ok { succ with
          exprs := update succ.exprs d (some edgeExpr)
          states := succ.states ++ [d] }
      | some expr =>
        .ok { succ with exprs := update succ.exprs d (some (buildBoolOr expr edgeExpr)) }

/-- The loop over the states of the automaton that are in the vector. -/
def successors (t : Tables) (n : Nfa) (v : BoolVector) : Outcome Successors :=
  (n.states.filter fun s => v.getD (t.stateLabel s) false).foldlM
    (fun succ s => (t.srcEdges s).foldlM (t.addSuccessor (t.stateLabel n.final)) succ)
    { exprs := fun _ => none, states := [], expr := none }

end Tables

/-- `Add_Vector`. -/
def Deter.addVector (deter : Deter) (v : BoolVector) : NfaState × Deter :=
  match deter.leaves.find? fun leaf => leaf.1 = v with
  | some leaf => (leaf.2, deter)
  | none =>
    let (res, n, t) := deter.t.addState deter.n
    (res, { n, t, leaves := deter.leaves ++ [(v, res)], stack := (v, res) :: deter.stack })

/-- `Build_Arcs`. -/
def buildArcs (exprs : Nat → Option BoolNode) (state : NfaState) :
    List Nat → Option BoolNode → BoolVector → Deter → Outcome Deter
  | [], expr, v, deter =>
    match expr with
    -- `Reduce` of a null node.
    | none => .error .programError
    | some expr =>
      if expr = .falseNode then .ok deter
      else do
        let (reduced, t) ← deter.t.reduce expr
        let deter := { deter with t }
        if reduced = .falseNode then return deter
        else
          let (s, deter) := deter.addVector v
          return { deter with t := (deter.t.addEdge state s (some reduced)).2 }
  | s :: states, expr, v, deter =>
    match expr, exprs s with
    -- `Build_Bool_And` or `Build_Bool_Not` of a null node.
    | _, none => .error .programError
    | none, some e => do
      let deter ← buildArcs exprs state states (some e) (v.set s true) deter
      buildArcs exprs state states (some (buildBoolNot e)) v deter
    | some expr, some e =>
      if expr = .falseNode then .ok deter
      else do
        let deter ← buildArcs exprs state states (some (buildBoolAnd e expr)) (v.set s true) deter
        buildArcs exprs state states (some (buildBoolAnd (buildBoolNot e) expr)) v deter

namespace Deter

/-- The body of the outer loop of `Determinize_1`, for a vector and its state. -/
def handle (n : Nfa) (nbrStates : Nat) (deter : Deter) (v : BoolVector) (state : NfaState) :
    Outcome Deter := do
  let succ ← deter.t.successors n v
  if succ.states = [] ∧ succ.expr = none then .ok deter
  else buildArcs succ.exprs state succ.states succ.expr (List.replicate nbrStates false) deter

/-- The outer loop of `Determinize_1`. -/
def run (n : Nfa) (nbrStates : Nat) : Nat → Deter → Outcome Deter
  | fuel, deter =>
    match deter.stack, fuel with
    | [], _ => .ok deter
    | _ :: _, 0 => .error .endless
    | (v, state) :: rest, fuel + 1 => do
      let deter ← handle n nbrStates { deter with stack := rest } v state
      run n nbrStates fuel deter

end Deter

namespace Tables

/-- `Determinize_1`. There are at most as many vectors as sets of labels. -/
def determinize1 (t : Tables) (n : Nfa) (nbrStates : Nat) : Outcome (Nfa × Tables) := do
  let deter : Deter := { n := createNfa, t, leaves := [], stack := [] }
  let (start, deter) := deter.addVector (true :: List.replicate (nbrStates - 1) false)
  let (final, deter) := deter.addVector (List.replicate nbrStates false)
  -- There is nothing to do with the failure state.
  let deter := { deter with stack := deter.stack.tail }
  let deter ← Deter.run n nbrStates (2 ^ nbrStates) deter
  return ({ deter.n with start, final }, deter.t)

/-- `Determinize`. -/
def determinize (t : Tables) (n : Nfa) : Outcome (Nfa × Tables) :=
  if n.start = 0 ∨ n.final = 0 then .error .assertion
  else
    let (t, nbrStates) := t.labelizeStates n
    t.determinize1 n nbrStates

end Tables

end Ghdl.Psl
