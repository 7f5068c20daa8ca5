import Ghdl.Psl.Build
import Ghdl.Psl.Intersection
import Ghdl.Psl.Qm

/-!
# Automata of sequential expressions

`Build_Fusion` and `Build_SERE_FA` of `psl-build`.
-/

namespace Ghdl.Psl

namespace Tables

/-- The body of the inner loop of `Build_Fusion`: the edge from the start state of R leaves SL too, with the
conjunction of both expressions. -/
def fuseEdge (sL : NfaState) (nL : Option BoolNode) (t : Tables) (eR : NfaEdge) : Outcome Tables :=
  match nL, t.edgeExpr eR with
  | some nL, some nR => do
    let (expr, t) ← t.reduce (buildBoolAnd nL nR)
    return if expr ≠ .falseNode then (t.addEdge sL (t.edgeDest eR) (some expr)).2 else t
  -- `Build_Bool_And` of a null node.
  | _, _ => .error .programError

/-- The outer loop of `Build_Fusion`, from the edge EL on. The walk goes on with the edge after EL in the
chain, unless EL was removed in its own round. -/
def fuseWalk (startR : NfaState) : Nat → Option NfaEdge → Tables → Outcome Tables
  | _, none, t => .ok t
  | 0, some _, _ => .error .endless
  | fuel + 1, some eL, t => do
    let sL := t.edgeSrc eL
    let t ← (t.srcEdges startR).foldlM (fuseEdge sL (t.edgeExpr eL)) t
    let t ← t.removeIdenticalSrcEdges sL
    if t.Live eL then fuseWalk startR fuel (t.nextDestEdge eL) t else .error .freedEdge

/-- `Build_Fusion`. -/
def buildFusion (t : Tables) (l r : Nfa) : Outcome (Nfa × Tables) := do
  let n := mergeNfa l r
  let edges := t.destEdges l.final
  let t ← fuseWalk r.start edges.length edges.head? t
  let n := { n with final := r.final, epsilon := false }
  let (n, t) ← if t.srcEdges l.final = [] then t.removeState n l.final else .ok (n, t)
  if t.destEdges r.start = [] then t.removeState n r.start else .ok (n, t)

/-- `Build_SERE_FA` of a boolean. -/
def buildBoolean (t : Tables) (b : BoolNode) : Nfa × Tables :=
  let (s1, n, t) := t.addState createNfa
  let (s2, n, t) := t.addState n
  let n := { n with start := s1, final := s2 }
  (n, if b ≠ .falseNode then (t.addEdge s1 s2 (some b)).2 else t)

end Tables

/-- The sequential expressions that reach `Build_SERE_FA`. A repetition without a sequence is `[*0]`. The
instances of sequences are replaced by their declarations. -/
inductive Sere where
  | boolean (b : BoolNode)
  | braced (sere : Sere)
  | concat (left right : Sere)
  | fusion (left right : Sere)
  | matchAnd (left right : Sere)
  | and (left right : Sere)
  | or (left right : Sere)
  | empty
  | star (sere : Sere)
  | plus (sere : Sere)
deriving DecidableEq, Repr

/-- `Build_SERE_FA`. The operands are built from left to right. -/
def buildSereFa (t : Tables) : Sere → Outcome (Nfa × Tables)
  | .boolean b => .ok (t.buildBoolean b)
  | .braced sere => buildSereFa t sere
  | .concat left right => do
    let (l, t) ← buildSereFa t left
    let (r, t) ← buildSereFa t right
    t.buildConcat l r
  | .fusion left right => do
    let (l, t) ← buildSereFa t left
    let (r, t) ← buildSereFa t right
    t.buildFusion l r
  | .matchAnd left right => do
    let (l, t) ← buildSereFa t left
    let (r, t) ← buildSereFa t right
    t.buildInter l r true
  | .and left right => do
    let (l, t) ← buildSereFa t left
    let (r, t) ← buildSereFa t right
    t.buildInter l r false
  | .or left right => do
    let (l, t) ← buildSereFa t left
    let (r, t) ← buildSereFa t right
    t.buildOr l r
  | .empty => .ok t.buildEmpty
  | .star sere => do
    let (n, t) ← buildSereFa t sere
    t.buildStarRepeat n
  | .plus sere => do
    let (n, t) ← buildSereFa t sere
    return t.buildPlusRepeat n

/-- A numbering of the nodes. The numbers are unique; which node comes first is up to the parser. -/
def BoolNode.number : BoolNode → Nat
  | hdlExpr expr => 8 * expr
  | eos => 1
  | trueNode => 2
  | falseNode => 3
  | notBool origin boolean => 8 * Nat.pair (origin.elim 0 Nat.succ) boolean.number + 4
  | andBool origin left right =>
    8 * Nat.pair (origin.elim 0 Nat.succ) (Nat.pair left.number right.number) + 5
  | orBool origin left right =>
    8 * Nat.pair (origin.elim 0 Nat.succ) (Nat.pair left.number right.number) + 6
  | impBool origin left right =>
    8 * Nat.pair (origin.elim 0 Nat.succ) (Nat.pair left.number right.number) + 7

/-- The tables before anything is built. -/
def emptyTables (nodeIndex : BoolNode → Nat) : Tables where
  srcEdges _ := []
  destEdges _ := []
  stateLabel _ := 0
  lastState := 0
  freeStates := []
  edgeSrc _ := 0
  edgeDest _ := 0
  edgeExpr _ := none
  lastEdge := 0
  freeEdges := []
  nodeIndex
  terms := []

end Ghdl.Psl
