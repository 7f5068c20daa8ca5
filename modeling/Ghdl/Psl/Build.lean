import Ghdl.Psl.Epsilon

/-!
# Construction of automata

`Build_Concat`, `Build_Or`, `Build_Star_Repeat` and `Build_Plus_Repeat` of `psl-build`. Each one takes the
automata of its operands, which `Build_SERE_FA` has built, and edits them in place.
-/

namespace Ghdl.Psl

namespace Tables

/-- `Build_Concat`. -/
def buildConcat (t : Tables) (l r : Nfa) : Outcome (Nfa × Tables) := do
  let n := mergeNfa l r
  let n := { n with start := l.start, final := r.final, epsilon := false }
  let (eL, t) := if l.epsilon then t.addEdge l.start l.final none else (0, t)
  let (eR, t) := if r.epsilon then t.addEdge r.start r.final none else (0, t)
  let (n, t) ← t.removeEpsilonEdge n l.final r.start
  let (n, t) ← if l.epsilon then t.removeEpsilon n eL else .ok (n, t)
  let (n, t) ← if r.epsilon then t.removeEpsilon n eR else .ok (n, t)
  let n :=
    if (l.start = l.final ∨ l.epsilon) ∧ (r.start = r.final ∨ r.epsilon) then { n with epsilon := true }
    else n
  let t ← t.removeIdenticalSrcEdges l.final
  let t ← t.removeIdenticalDestEdges r.start
  return (n, t)

/-- The part of `Build_Or` that adds the states and the epsilon edges of the Thompson construction: the
edges to both starts and from both finals. -/
def thompson (t : Tables) (l r : Nfa) : (NfaEdge × NfaEdge × NfaEdge × NfaEdge) × Nfa × Tables :=
  let n := mergeNfa l r
  let (start, n, t) := t.addState n
  let n := { n with start }
  let (eSL, t) := t.addEdge start l.start none
  let (eSR, t) := t.addEdge start r.start none
  let (final, n, t) := t.addState n
  let n := { n with final }
  let (eLF, t) := t.addEdge l.final final none
  let (eRF, t) := t.addEdge r.final final none
  ((eSL, eSR, eLF, eRF), { n with epsilon := l.epsilon || r.epsilon }, t)

/-- `Build_Or`. -/
def buildOr (t : Tables) (l r : Nfa) : Outcome (Nfa × Tables) :=
  -- Optimize [*0] | R.
  if l.start = l.final ∧ t.srcEdges l.start = [] then
    .ok (if r.start ≠ r.final then { r with epsilon := true } else r, t)
  else do
    let ((eSL, eSR, eLF, eRF), n, t) := t.thompson l r
    let (n, t) ← t.removeEpsilon n eSL
    let (n, t) ← t.removeEpsilon n eSR
    let (n, t) ← t.removeEpsilon n eLF
    let (n, t) ← t.removeEpsilon n eRF
    return (n, t)

/-- `Build_Star_Repeat` without a sequence: `[*0]`. -/
def buildEmpty (t : Tables) : Nfa × Tables :=
  let (s, n, t) := t.addState createNfa
  ({ n with start := s, final := s }, t)

/-- `Build_Star_Repeat` of the automaton of the sequence. -/
def buildStarRepeat (t : Tables) (n : Nfa) : Outcome (Nfa × Tables) := do
  let t := t.redestEdges n.final n.start
  let final := n.final
  let n := { n with final := n.start }
  let (n, t) ← t.removeUnconnectedState n final
  return ({ n with epsilon := false }, t)

/-- The edge E and those after it in the chain of its source. `Add_Edge` puts edges in front of the chains
and changes no link, so that a walk from E meets these edges whatever is added on the way. -/
def srcEdgesFrom (t : Tables) (e : NfaEdge) : List NfaEdge :=
  (t.srcEdges (t.edgeSrc e)).dropWhile (· ≠ e)

/-- `Build_Plus_Repeat` of the automaton of the sequence. The walk starts with the first edge to the final
state and goes on with `Get_Next_Src_Edge`. -/
def buildPlusRepeat (t : Tables) (n : Nfa) : Nfa × Tables :=
  match t.destEdges n.final with
  | [] => (n, t)
  | first :: _ =>
    (n, (t.srcEdgesFrom first).foldl (fun t e =>
      (t.addEdge (t.edgeSrc e) n.start (t.edgeExpr e)).2) t)

end Tables

end Ghdl.Psl
