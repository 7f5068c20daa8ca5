import Ghdl.Synth.Gates

/-!
# Wires and assignments

The tables of `synth-environment`. A wire has the record of its last assignment, and each record has the
assignment that the wire had before. The records that are made in one phi context are a chain, so that the
end of the context takes them back and `Merge_Phis` merges two contexts wire by wire. `No_Assign` is `none`.
-/

namespace Ghdl.Synth

open Function

/-- `Wire_Id`. -/
abbrev WireId := Nat

/-- `Assign`, numbered from one. -/
abbrev Assign := Nat

/-- `Phi_Id`, zero is `No_Phi_Id`. -/
abbrev PhiId := Nat

/-- `Wire_Kind`. -/
inductive WireKind where
  | none
  | signal
  | variable_
  | input
  | output
  | inout
deriving DecidableEq, Repr

/-- `Wire_Id_Record`. -/
structure WireIdRecord where
  kind : WireKind
  /-- The initial net for the wire. -/
  gate : Net
  curAssign : Option Assign

/-- `Assign_Record`. -/
structure AssignRecord where
  /-- Target of the assignment. -/
  id : WireId
  /-- Assignment in the previous phi context. -/
  prev : Option Assign
  phi : PhiId
  /-- Next wire in the phi context. -/
  chain : Option Assign
  value : Net

/-- `Phi_Type`. -/
structure PhiType where
  first : Option Assign
  nbr : Nat

/-- The tables, with the last context of `Phis_Table` in front. -/
structure Env where
  netlist : Netlist
  wires : WireId → WireIdRecord
  asgns : Assign → AssignRecord
  lastAssign : Assign
  phis : List PhiType

namespace Env

variable (e : Env)

/-- `Current_Phi`: the first context is `No_Phi_Id`. -/
def currentPhi : PhiId := e.phis.length - 1

/-- `Cur_Assign` of a wire is replaced. -/
def setCurAssign (w : WireId) (asgn : Option Assign) : Env :=
  { e with wires := update e.wires w { e.wires w with curAssign := asgn } }

/-- `Set_Assign_Chain`. -/
def setAssignChain (asgn : Assign) (chain : Option Assign) : Env :=
  { e with asgns := update e.asgns asgn { e.asgns asgn with chain } }

/-- `Push_Phi`. -/
def pushPhi : Env := { e with phis := { first := none, nbr := 0 } :: e.phis }

/-- The loop of `Pop_Phi`: the wires of the chain point to their previous assignments. -/
def popWalk (curPhi : PhiId) : Nat → Option Assign → Env → Outcome Env
  | 0, _, _ => .error .endless
  | _ + 1, none, e => .ok e
  | fuel + 1, some asgn, e => do
    check ((e.asgns asgn).phi = curPhi)
    let e := e.setCurAssign (e.asgns asgn).id (e.asgns asgn).prev
    popWalk curPhi fuel (e.asgns asgn).chain e

/-- `Pop_Phi`. -/
def popPhi : Outcome (PhiType × Env) :=
  match e.phis with
  | [] => .error .internalError
  | phi :: rest => do
    let e ← popWalk e.currentPhi (e.lastAssign + 2) phi.first { e with phis := rest }
    return (phi, e)

/-- EL is appended to the chain from FIRST to LAST, which are `No_Assign` together. -/
def appendEl (first last : Option Assign) (el : Assign) : Option Assign × Env :=
  match last with
  | none => (some el, e)
  | some last => (first, e.setAssignChain last (some el))

/-- The next element of the merge of LEFT and RIGHT, and what is left of them. -/
def takeEl : Option Assign → Option Assign → Outcome (Assign × Option Assign × Option Assign)
  | some l, none => .ok (l, (e.asgns l).chain, none)
  | some l, some r =>
    if (e.asgns l).id ≤ (e.asgns r).id then .ok (l, (e.asgns l).chain, some r)
    else .ok (r, some l, (e.asgns r).chain)
  | none, some r => .ok (r, none, (e.asgns r).chain)
  | none, none => .error .assertion

/-- The merge of `Sort_Wires`: LEN elements are taken from LEFT and RIGHT and appended after LAST. -/
def sortMerge : Nat → Option Assign → Option Assign → Option Assign → Option Assign → Env →
    Outcome (Option Assign × Option Assign × Env)
  | 0, first, last, _, _, e => .ok (first, last, e)
  | len + 1, first, last, left, right, e => do
    let (el, left, right) ← e.takeEl left right
    let (first, e) := e.appendEl first last el
    sortMerge len first (some el) left right e

/-- `Sort_Wires`: the chain of the LEN first wires, sorted, and the wire after them. -/
def sortWires : Nat → Option Assign → Nat → Env → Outcome (Option Assign × Option Assign × Env)
  | 0, _, _, _ => .error .endless
  | fuel + 1, asgn, len, e =>
    if len = 0 then .ok (none, asgn, e)
    else if len = 1 then
      match asgn with
      | none => .error .internalError
      | some first => .ok (some first, (e.asgns first).chain, e.setAssignChain first none)
    else do
      let (left, right, e) ← sortWires fuel asgn (len / 2) e
      let (right, next, e) ← sortWires fuel right (len - len / 2) e
      let (first, last, e) ← sortMerge len none none left right e
      match last with
      | none => .error .internalError
      | some last => return (first, next, e.setAssignChain last none)

/-- `Sort_Phi`. -/
def sortPhi (p : PhiType) : Outcome (Option Assign × Env) := do
  let (res, last, e) ← e.sortWires (p.nbr + 1) p.first p.nbr
  check (last = none)
  return (res, e)

/-- `Get_Assign_Value`. -/
def getAssignValue (asgn : Assign) : Outcome Net :=
  match (e.wires (e.asgns asgn).id).kind with
  | .signal | .output | .inout | .variable_ => .ok (e.asgns asgn).value
  | .input | .none => .error .internalError

/-- `Get_Current_Value`. -/
def getCurrentValue (w : WireId) : Outcome Net :=
  match (e.wires w).kind with
  | .variable_ =>
    match (e.wires w).curAssign with
    | none => .ok (e.wires w).gate
    | some asgn => .ok (e.asgns asgn).value
  | .signal | .output | .inout | .input => .ok (e.wires w).gate
  | .none => .error .internalError

/-- `Get_Last_Assigned_Value`. -/
def getLastAssignedValue (w : WireId) : Outcome Net :=
  match (e.wires w).curAssign with
  | none => .ok (e.wires w).gate
  | some asgn => e.getAssignValue asgn

/-- `Phi_Insert_Assign`. -/
def phiInsertAssign (asgn : Assign) : Outcome Env := do
  check ((e.asgns asgn).phi = e.currentPhi)
  check ((e.asgns asgn).chain = none)
  match e.phis with
  | [] => .error .internalError
  | p :: rest =>
    return { e.setAssignChain asgn p.first with phis := { first := some asgn, nbr := p.nbr + 1 } :: rest }

/-- The record of the first assignment of a wire in the current context. -/
def phiAppend (dest : WireId) (val : Net) : Outcome Env :=
  let asgn := e.lastAssign + 1
  let record : AssignRecord :=
    { id := dest, prev := (e.wires dest).curAssign, phi := e.currentPhi, chain := none, value := val }
  let e := { e with asgns := update e.asgns asgn record, lastAssign := asgn }
  (e.setCurAssign dest (some asgn)).phiInsertAssign asgn

/-- `Phi_Assign`. -/
def phiAssign (dest : WireId) (val : Net) : Outcome Env :=
  match (e.wires dest).curAssign with
  | none => e.phiAppend dest val
  | some asgn =>
    if (e.asgns asgn).phi < e.currentPhi then e.phiAppend dest val
    else return { e with asgns := update e.asgns asgn { e.asgns asgn with value := val } }

/-- What one step of `Merge_Phis` extracts: the wire, its values in the two contexts, and what is left of the
two chains. -/
structure Extract where
  w : WireId
  te : Net
  fe : Net
  tAsgns : Option Assign
  fAsgns : Option Assign

/-- A wire that is assigned in the false context only. -/
def extractFalse (tAsgns : Option Assign) (f : Assign) : Outcome Extract := do
  let w := (e.asgns f).id
  let te ← e.getLastAssignedValue w
  let fe ← e.getAssignValue f
  return { w, te, fe, tAsgns, fAsgns := (e.asgns f).chain }

/-- A wire that is assigned in the true context only. -/
def extractTrue (t : Assign) (fAsgns : Option Assign) : Outcome Extract := do
  let w := (e.asgns t).id
  let te ← e.getAssignValue t
  let fe ← e.getLastAssignedValue w
  return { w, te, fe, tAsgns := (e.asgns t).chain, fAsgns }

/-- A wire that is assigned in both contexts. -/
def extractBoth (t f : Assign) : Outcome Extract := do
  check ((e.asgns f).id = (e.asgns t).id)
  let te ← e.getAssignValue t
  let fe ← e.getAssignValue f
  return { w := (e.asgns f).id, te, fe, tAsgns := (e.asgns t).chain, fAsgns := (e.asgns f).chain }

/-- The extraction of a wire from the two chains. -/
def extractWire : Option Assign → Option Assign → Outcome Extract
  | none, none => .error .internalError
  | none, some f => e.extractFalse none f
  | some t, none => e.extractTrue t none
  | some t, some f =>
    if (e.asgns f).id < (e.asgns t).id then e.extractFalse (some t) f
    else if (e.asgns t).id < (e.asgns f).id then e.extractTrue t (some f)
    else e.extractBoth t f

/-- The loop of `Merge_Phis`: the wires of the two chains get multiplexers. -/
def mergeLoop (sel : Net) : Nat → Option Assign → Option Assign → Env → Outcome Env
  | 0, _, _, _ => .error .endless
  | fuel + 1, tAsgns, fAsgns, e =>
    if tAsgns = none ∧ fAsgns = none then .ok e
    else do
      let x ← e.extractWire tAsgns fAsgns
      let (res, netlist) ← e.netlist.buildMux2 sel x.fe x.te
      let e ← { e with netlist }.phiAssign x.w res
      mergeLoop sel fuel x.tAsgns x.fAsgns e

/-- `Merge_Phis`. -/
def mergePhis (sel : Net) (t f : PhiType) : Outcome Env := do
  let (tAsgns, e) ← e.sortPhi t
  let (fAsgns, e) ← e.sortPhi f
  mergeLoop sel (t.nbr + f.nbr + 1) tAsgns fAsgns e

end Env

end Ghdl.Synth
