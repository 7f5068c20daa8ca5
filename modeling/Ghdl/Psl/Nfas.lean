import Ghdl.System.Fallible
import Ghdl.Psl.Nodes

/-!
# Automata tables of PSL

The tables of `psl-nfas`: states, edges and the edits of an automaton. The intrusive chains of the source
are lists here: the edges that leave a state (`First_Src`, `Next_Src`), the edges that enter it
(`First_Dst`, `Next_Dst`), the states of an automaton, and both free lists. A removed edge is in the free
list and its chains are lost, so that a walk that goes on from it is an error of its own.
-/

namespace Ghdl.Psl

open Function

/-- `NFA_State`, zero is `No_State`. -/
abbrev NfaState := Nat

/-- `NFA_Edge`, zero is `No_Edge`. -/
abbrev NfaEdge := Nat

/-- What stops a construction. -/
inductive PslError where
  /-- A failed `pragma Assert`. -/
  | assertion
  /-- `Internal_Error`. -/
  | internalError
  /-- `Program_Error`. -/
  | programError
  /-- A value out of its range. -/
  | constraintError
  /-- An edge is read after it was put in the free list. -/
  | freedEdge
  /-- A loop that does not end. -/
  | endless
deriving DecidableEq, Repr

/-- The result of a subprogram that may raise an exception. -/
abbrev Outcome := Except PslError

theorem exists_ok_ok {α β γ δ : Type} {result : Outcome α} {next : α → Outcome β} {view : α → γ}
    {view' : β → δ} {c : γ} {d : δ}
    (run : result.toOption.bind (fun a => (next a).toOption.map fun b => (view a, view' b)) = some (c, d)) :
    ∃ a b, result = .ok a ∧ next a = .ok b ∧ view a = c ∧ view' b = d := by
  cases result with
  | error _ => cases run
  | ok a =>
    obtain ⟨b, run', seen⟩ := Fallible.exists_ok run
    exact ⟨a, b, rfl, run', (Prod.mk.inj seen).1, (Prod.mk.inj seen).2⟩

/-- `Statet`, `Transt` and both free lists, with the numbers of the nodes and the terms of `psl-qm`. -/
structure Tables where
  /-- The edges that leave a state, in the order of `Next_Src`. -/
  srcEdges : NfaState → List NfaEdge
  /-- The edges that enter a state, in the order of `Next_Dst`. -/
  destEdges : NfaState → List NfaEdge
  stateLabel : NfaState → Nat
  /-- `Statet.Last`. -/
  lastState : NfaState
  freeStates : List NfaState
  edgeSrc : NfaEdge → NfaState
  edgeDest : NfaEdge → NfaState
  /-- `Null_Node` is an epsilon edge. -/
  edgeExpr : NfaEdge → Option BoolNode
  /-- `Transt.Last`. -/
  lastEdge : NfaEdge
  freeEdges : List NfaEdge
  /-- The number of a node, by which edges are sorted. -/
  nodeIndex : BoolNode → Nat
  /-- `Term_Assoc (1 .. Nbr_Terms)`. -/
  terms : List BoolNode

/-- `NFA_Node`. -/
structure Nfa where
  /-- The states from `First_State` to `Last_State`. -/
  states : List NfaState
  start : NfaState
  final : NfaState
  epsilon : Bool
deriving DecidableEq, Repr

/-- `Create_NFA`. -/
def createNfa : Nfa := { states := [], start := 0, final := 0, epsilon := false }

/-- `Merge_NFA`: the states of R go after those of L. -/
def mergeNfa (l r : Nfa) : Nfa := { l with states := l.states ++ r.states }

namespace Tables

/-- A state is taken from the free list, or added to the table. -/
def newState (t : Tables) : NfaState × Tables :=
  match t.freeStates with
  | [] => (t.lastState + 1, { t with lastState := t.lastState + 1 })
  | s :: rest => (s, { t with freeStates := rest })

/-- `Add_State`. -/
def addState (t : Tables) (n : Nfa) : NfaState × Nfa × Tables :=
  let (s, t) := t.newState
  (s, { n with states := n.states ++ [s] },
    { t with
      srcEdges := update t.srcEdges s []
      destEdges := update t.destEdges s []
      stateLabel := update t.stateLabel s 0 })

/-- An edge is taken from the free list, or added to the table. -/
def newEdge (t : Tables) : NfaEdge × Tables :=
  match t.freeEdges with
  | [] => (t.lastEdge + 1, { t with lastEdge := t.lastEdge + 1 })
  | e :: rest => (e, { t with freeEdges := rest })

/-- `Add_Edge`: the edge is put in front of both chains. -/
def addEdge (t : Tables) (src dest : NfaState) (expr : Option BoolNode) : NfaEdge × Tables :=
  let (e, t) := t.newEdge
  (e, { t with
    edgeSrc := update t.edgeSrc e src
    edgeDest := update t.edgeDest e dest
    edgeExpr := update t.edgeExpr e expr
    srcEdges := update t.srcEdges src (e :: t.srcEdges src)
    destEdges := update t.destEdges dest (e :: t.destEdges dest) })

/-- `Get_Next_Src_Edge`. -/
def nextSrcEdge (t : Tables) (e : NfaEdge) : Option NfaEdge :=
  ((t.srcEdges (t.edgeSrc e)).dropWhile (· ≠ e)).tail.head?

/-- `Get_Next_Dest_Edge`. -/
def nextDestEdge (t : Tables) (e : NfaEdge) : Option NfaEdge :=
  ((t.destEdges (t.edgeDest e)).dropWhile (· ≠ e)).tail.head?

/-- `Disconnect_Edge_Src`: the walk asserts that the edge is in the chain. -/
def disconnectEdgeSrc (t : Tables) (s : NfaState) (e : NfaEdge) : Outcome Tables :=
  if e ∈ t.srcEdges s then
    .ok { t with srcEdges := update t.srcEdges s ((t.srcEdges s).erase e) }
  else .error .assertion

/-- `Disconnect_Edge_Dest`. -/
def disconnectEdgeDest (t : Tables) (s : NfaState) (e : NfaEdge) : Outcome Tables :=
  if e ∈ t.destEdges s then
    .ok { t with destEdges := update t.destEdges s ((t.destEdges s).erase e) }
  else .error .assertion

/-- `Remove_Edge`. -/
def removeEdge (t : Tables) (e : NfaEdge) : Outcome Tables := do
  let t ← t.disconnectEdgeSrc (t.edgeSrc e) e
  let t ← t.disconnectEdgeDest (t.edgeDest e) e
  return { t with freeEdges := e :: t.freeEdges }

/-- `Remove_Unconnected_State`. -/
def removeUnconnectedState (t : Tables) (n : Nfa) (s : NfaState) : Outcome (Nfa × Tables) :=
  if t.srcEdges s = [] ∧ t.destEdges s = [] then
    .ok ({ n with states := n.states.erase s }, { t with freeStates := s :: t.freeStates })
  else .error .assertion

/-- `Remove_State`: the next edge is read before the edge is removed. -/
def removeState (t : Tables) (n : Nfa) (s : NfaState) : Outcome (Nfa × Tables) := do
  let t ← (t.destEdges s).foldlM removeEdge t
  let t ← (t.srcEdges s).foldlM removeEdge t
  t.removeUnconnectedState n s

/-- `Redest_Edges`: the edges to S are put in front of the edges to DEST. -/
def redestEdges (t : Tables) (s dest : NfaState) : Tables :=
  let edges := t.destEdges s
  let chains := update t.destEdges s []
  { t with
    destEdges := update chains dest (edges ++ chains dest)
    edgeDest := fun e => if e ∈ edges then dest else t.edgeDest e }

/-- `Resource_Edges`: the edges from S are put in front of the edges from SRC. -/
def resourceEdges (t : Tables) (s src : NfaState) : Tables :=
  let edges := t.srcEdges s
  let chains := update t.srcEdges s []
  { t with
    srcEdges := update chains src (edges ++ chains src)
    edgeSrc := fun e => if e ∈ edges then src else t.edgeSrc e }

end Tables

end Ghdl.Psl
