import Ghdl.Psl.Optimize

/-!
# Product of two automata

`Build_Inter` of `psl-build`. The states of the product are found in a table of pairs; a pair that is new
gets a state and is put on the list of unhandled pairs. When the lengths need not match, both final states
get a loop, and the product does not take both loops at the same letter.
-/

namespace Ghdl.Psl

namespace Tables

/-- `Stack_Entry`: a pair of states and its state in the product. -/
structure StackEntry where
  l : NfaState
  r : NfaState
  res : NfaState
deriving DecidableEq, Repr

/-- The product that is built, its table of pairs, and the pairs that are not handled yet. -/
structure Product where
  n : Nfa
  t : Tables
  stack : List StackEntry
  unhandled : List (NfaState × NfaState)

/-- `Get_State`. -/
def Product.getState (product : Product) (l r : NfaState) : NfaState × Product :=
  match product.stack.find? fun i => i.l = l ∧ i.r = r with
  | some i => (i.res, product)
  | none =>
    let (res, n, t) := product.t.addState product.n
    (res, { n, t, stack := product.stack ++ [{ l, r, res }], unhandled := (l, r) :: product.unhandled })

/-- The body of the inner loop of `Build_Inter`, for one pair of edges. -/
def Product.addPair (extraL extraR : Option NfaEdge) (sL sR : NfaState) (eL : NfaEdge)
    (product : Product) (eR : NfaEdge) : Outcome Product :=
  if some eL = extraL ∧ some eR = extraR then .ok product
  else
    match product.t.edgeExpr eL, product.t.edgeExpr eR with
    | some exprL, some exprR =>
      let (src, product) := product.getState sL sR
      let (dest, product) := product.getState (product.t.edgeDest eL) (product.t.edgeDest eR)
      .ok { product with t := (product.t.addEdge src dest (some (buildBoolAnd exprL exprR))).2 }
    -- `Build_Bool_And` of a null node.
    | _, _ => .error .programError

/-- Both inner loops of `Build_Inter`, for one pair of states. -/
def Product.handle (extraL extraR : Option NfaEdge) (product : Product) (sL sR : NfaState) :
    Outcome Product :=
  (product.t.srcEdges sL).foldlM (fun product eL =>
    (product.t.srcEdges sR).foldlM (Product.addPair extraL extraR sL sR eL) product) product

/-- The outer loop of `Build_Inter`. -/
def Product.run (extraL extraR : Option NfaEdge) : Nat → Product → Outcome Product
  | fuel, product =>
    match product.unhandled, fuel with
    | [], _ => .ok product
    | _ :: _, 0 => .error .endless
    | (sL, sR) :: rest, fuel + 1 => do
      let product ← Product.handle extraL extraR { product with unhandled := rest } sL sR
      Product.run extraL extraR fuel product

/-- `Build_Inter` between the edges that are added to the final states and their removal. -/
def interProduct (t : Tables) (l r : Nfa) (extraL extraR : Option NfaEdge) : Outcome (Nfa × Tables) := do
  let product : Product := { n := createNfa, t, stack := [], unhandled := [] }
  let (start, product) := product.getState l.start r.start
  let product := { product with n := { product.n with start } }
  let product ← Product.run extraL extraR (l.states.length * r.states.length) product
  let (final, product) := product.getState l.final r.final
  product.t.removeUnreachableStates { product.n with final }

/-- `Build_Inter`. -/
def buildInter (t : Tables) (l r : Nfa) (matchLen : Bool) : Outcome (Nfa × Tables) :=
  if matchLen then t.interProduct l r none none
  else do
    let (extraL, t) := t.addEdge l.final l.final (some .trueNode)
    let (extraR, t) := t.addEdge r.final r.final (some .trueNode)
    let (n, t) ← t.interProduct l r (some extraL) (some extraR)
    let t ← t.removeEdge extraL
    let t ← t.removeEdge extraR
    return (n, t)

end Tables

end Ghdl.Psl
