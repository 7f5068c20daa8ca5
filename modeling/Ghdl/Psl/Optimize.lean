import Ghdl.Automata.Search
import Ghdl.Psl.NfasUtils

/-!
# Optimizations

`Remove_Unreachable_States` and `Remove_Simple_Prefix` of `psl-optimize`. The flags and the links of the
states, by which the source marks states and keeps a stack of them, are lists here.
-/

namespace Ghdl.Psl

namespace Tables

/-- The states on the other side of the edges of a state. -/
def neighbours (t : Tables) (side : Side) (s : NfaState) : List NfaState :=
  (t.chain side s).map (t.edgeEnd side.reverse)

/-- One state of the loop that removes the states without flag, but not the state KEEP. -/
def removeUnmarked (keep : NfaState) (marked : List NfaState) (state : Nfa × Tables) (s : NfaState) :
    Outcome (Nfa × Tables) :=
  if s ∈ marked then .ok state
  else if s = keep then .ok state
  else state.2.removeState state.1 s

/-- The states that are not reached from ROOT along the edges of a side are removed, but not KEEP. -/
def removeUnreached (t : Tables) (n : Nfa) (side : Side) (root keep : NfaState) :
    Outcome (Nfa × Tables) :=
  match Automata.search (t.neighbours side) n.states.length [root] [root] with
  | none => .error .endless
  | some marked => n.states.foldlM (removeUnmarked keep marked) (n, t)

/-- `Remove_Unreachable_States`. -/
def removeUnreachableStates (t : Tables) (n : Nfa) : Outcome (Nfa × Tables) := do
  let (n, t) ← t.removeUnreached n .src n.start n.final
  t.removeUnreached n .dest n.final n.start

/-- The body of the inner loop of `Remove_Simple_Prefix`, for one edge to the destination of `T_Start`. The
flag is `Clean`. -/
def removeParallel (tStart : NfaEdge) (tExpr : Option BoolNode) (state : Tables × Bool) (tD : NfaEdge) :
    Outcome (Tables × Bool) :=
  if tD ≠ tStart ∧ state.1.edgeExpr tD = tExpr then do
    let t ← state.1.removeEdge tD
    return (t, true)
  else .ok state

/-- The outer loop of `Remove_Simple_Prefix`, from the edge `T_Start` on. -/
def removeParallels : Nat → Option NfaEdge → Tables × Bool → Outcome (Tables × Bool)
  | _, none, state => .ok state
  | 0, some _, _ => .error .endless
  | fuel + 1, some tStart, state => do
    let d := state.1.edgeDest tStart
    let state ← (state.1.destEdges d).foldlM (removeParallel tStart (state.1.edgeExpr tStart)) state
    removeParallels fuel (state.1.nextSrcEdge tStart) state

/-- `Remove_Simple_Prefix`. -/
def removeSimplePrefix (t : Tables) (n : Nfa) : Outcome (Nfa × Tables) := do
  let edges := t.srcEdges n.start
  let (t, clean) ← removeParallels edges.length edges.head? (t, false)
  if clean then t.removeUnreachableStates n else return (n, t)

end Tables

end Ghdl.Psl
