import Ghdl.Linked.Unlink

/-!
# The hash table of `psl-cse`

The table of the nodes of PSL with its free list, as `psl-nodes` keeps it, and the constructors of `psl-cse`. A
constructor tries its simplifications first; then it looks for a node with the same operands on the chain of the
hash value, and it makes the node and puts it at the head of that chain when there is none.

A loop along a chain has as many turns as there are nodes; `none` says that they were not enough.
-/

namespace Ghdl.Psl.Cse

/-- The kinds of nodes that the constructors tell apart. -/
inductive Nkind where
  | error
  | hdlExpr
  | notBool
  | andBool
  | orBool
  | impBool
  | trueNode
  | falseNode
  | eos
  /-- The kinds of properties, sequences and declarations. -/
  | other
deriving DecidableEq, Repr

/-- `Node_Record`, with the fields of the boolean nodes. -/
structure NodeRecord where
  kind : Nkind
  /-- The left operand; the next free node in a free one. -/
  field1 : Nat
  /-- The right operand. -/
  field2 : Nat
  /-- The operand of a negation. -/
  field3 : Nat
  /-- The hash value. -/
  field5 : BitVec 32
  /-- The next node on the chain of the hash value. -/
  field6 : Nat
deriving DecidableEq, Repr

/-- `Init_Node`. -/
def initNode : NodeRecord where
  kind := .error
  field1 := 0
  field2 := 0
  field3 := 0
  field5 := 0
  field6 := 0

/-- `Null_Node`. -/
def nullNode : Nat := 0

/-- `False_Node`. -/
def falseNode : Nat := 1

/-- `True_Node`. -/
def trueNode : Nat := 2

/-- `EOS_Node`. -/
def eosNode : Nat := 4

/-- The state of `psl-nodes` and of `psl-cse`. -/
structure State where
  /-- `Nodet.Table`. -/
  nodes : Nat → NodeRecord
  /-- `Nodet.Last`. -/
  last : Nat
  /-- `Free_Nodes`. -/
  freeNodes : Nat
  /-- `Hash_Table`. -/
  hashTable : Fin 129 → Nat

namespace State

variable (s : State) (n : Nat)

/-- `Get_Kind`. -/
def getKind : Nkind := (s.nodes n).kind

/-- `Get_Left`. -/
def getLeft : Nat := (s.nodes n).field1

/-- `Get_Right`. -/
def getRight : Nat := (s.nodes n).field2

/-- `Get_Boolean`. -/
def getBoolean : Nat := (s.nodes n).field3

/-- `Get_Hash`. -/
def getHash : BitVec 32 := (s.nodes n).field5

/-- `Get_Hash_Link`. -/
def getHashLink : Nat := (s.nodes n).field6

/-- The fields of a node are written. -/
def write (record : NodeRecord) : State := { s with nodes := Function.update s.nodes n record }

/-- `Create_Node`: the node, and the state with its record empty but for the kind. -/
def createNode (kind : Nkind) : Nat × State :=
  if s.freeNodes ≠ nullNode then
    (s.freeNodes, { s with freeNodes := s.getLeft s.freeNodes }.write s.freeNodes { initNode with kind })
  else
    (s.last + 1, { s with last := s.last + 1 }.write (s.last + 1) { initNode with kind })

/-- `Free_Node`. -/
def freeNode : State :=
  { s.write n { s.nodes n with kind := .error, field1 := s.freeNodes } with freeNodes := n }

/-- `Is_X_And_Not_X`. -/
def isXAndNotX (a b : Nat) : Bool :=
  (s.getKind a = .notBool && s.getBoolean a = b) || (s.getKind b = .notBool && s.getBoolean b = a)

/-- `Compute_Hash` of two operands. -/
def computeHash (l r : Nat) (op : BitVec 32) : BitVec 32 := s.getHash l <<< 12 ^^^ s.getHash r <<< 2 ^^^ op

/-- `Compute_Hash` of one operand. -/
def computeHash1 (l : Nat) (op : BitVec 32) : BitVec 32 := s.getHash l <<< 2 ^^^ op

end State

/-- `Hash mod Hash_Table'Length`. -/
def bucket (hash : BitVec 32) : Fin 129 := Fin.ofNat 129 hash.toNat

/-- The loop along a chain: the first node whose record is the one looked for, or the null node. -/
def findNode (s : State) (same : NodeRecord → Bool) : Nat → Nat → Option Nat
  | 0, _ => none
  | turns + 1, h =>
    if h = nullNode then some nullNode
    else if same (s.nodes h) then some h
    else findNode s same turns (s.getHashLink h)

/-- The end that the constructors share: the node of the kind with these operands is found on the chain of the hash
value, or it is made. SAME compares the operands, and FILL sets them. -/
def hashNode (s : State) (kind : Nkind) (hash : BitVec 32) (same : NodeRecord → Bool)
    (fill : NodeRecord → NodeRecord) : Option (Nat × State) :=
  let head := s.hashTable (bucket hash)
  match findNode s (fun record => record.field5 = hash && record.kind = kind && same record) (s.last + 1) head with
  | none => none
  | some h =>
    if h ≠ nullNode then some (h, s)
    else
      let (res, created) := s.createNode kind
      let filled := created.write res { fill (created.nodes res) with field6 := head, field5 := hash }
      some (res, { filled with hashTable := Function.update filled.hashTable (bucket hash) res })

/-- The simplifications of `Build_Bool_And`. -/
def simplifyAnd (s : State) (l r : Nat) : Option Nat :=
  if l = trueNode then some r
  else if r = trueNode then some l
  else if l = falseNode ∨ r = falseNode then some falseNode
  else if l = r then some l
  else if s.isXAndNotX l r then some falseNode
  -- "More simple optimizations".
  else if s.getKind r = .andBool then
    let r1 := s.getLeft r
    if l = r1 then some r
    else if s.isXAndNotX l r1 then some falseNode
    else none
  else none

/-- `Build_Bool_And`. -/
def buildBoolAnd (s : State) (l r : Nat) : Option (Nat × State) :=
  match simplifyAnd s l r with
  | some n => some (n, s)
  | none =>
    hashNode s .andBool (s.computeHash l r 2) (fun record => record.field1 = l && record.field2 = r)
      fun record => { record with field1 := l, field2 := r }

/-- The simplifications of `Build_Bool_Or`. -/
def simplifyOr (s : State) (l r : Nat) : Option Nat :=
  if l = trueNode then some l
  else if r = trueNode then some r
  else if l = falseNode then some r
  else if r = falseNode then some l
  else if l = r then some l
  else if s.isXAndNotX l r then some trueNode
  else none

/-- `Build_Bool_Or`. -/
def buildBoolOr (s : State) (l r : Nat) : Option (Nat × State) :=
  match simplifyOr s l r with
  | some n => some (n, s)
  | none =>
    hashNode s .orBool (s.computeHash l r 3) (fun record => record.field1 = l && record.field2 = r)
      fun record => { record with field1 := l, field2 := r }

/-- The simplifications of `Build_Bool_Not`. -/
def simplifyNot (s : State) (n : Nat) : Option Nat :=
  if n = trueNode then some falseNode
  else if n = falseNode then some trueNode
  else if s.getKind n = .notBool then some (s.getBoolean n)
  else none

/-- `Build_Bool_Not`. -/
def buildBoolNot (s : State) (n : Nat) : Option (Nat × State) :=
  match simplifyNot s n with
  | some m => some (m, s)
  | none =>
    hashNode s .notBool (s.computeHash1 n 1) (fun record => record.field3 = n)
      fun record => { record with field3 := n }

/-- The state after `Init`, before anything is parsed. -/
def initialState : State where
  nodes := fun n =>
    if n = 1 then { initNode with kind := .falseNode }
    else if n = 2 then { initNode with kind := .trueNode }
    else if n = 3 then { initNode with kind := .other, field1 := 1 }
    else if n = 4 then { initNode with kind := .eos }
    else initNode
  last := 4
  freeNodes := nullNode
  hashTable := fun _ => nullNode

/-- A call of a constructor. -/
inductive Call where
  | buildAnd (l r : Nat)
  | buildOr (l r : Nat)
  | buildNot (n : Nat)
deriving DecidableEq, Repr

namespace Call

/-- The call is done: its result and the state after it. -/
def perform (s : State) : Call → Option (Nat × State)
  | buildAnd l r => buildBoolAnd s l r
  | buildOr l r => buildBoolOr s l r
  | buildNot n => buildBoolNot s n

/-- The simplification of the call, when one of them applies. -/
def simplify (s : State) : Call → Option Nat
  | buildAnd l r => simplifyAnd s l r
  | buildOr l r => simplifyOr s l r
  | buildNot n => simplifyNot s n

/-- The kind of the node of a call that is not simplified. -/
def kind : Call → Nkind
  | buildAnd _ _ => .andBool
  | buildOr _ _ => .orBool
  | buildNot _ => .notBool

/-- The hash value of the call. -/
def hash (s : State) : Call → BitVec 32
  | buildAnd l r => s.computeHash l r 2
  | buildOr l r => s.computeHash l r 3
  | buildNot n => s.computeHash1 n 1

/-- The operands of the call are written. -/
def fill (record : NodeRecord) : Call → NodeRecord
  | buildAnd l r => { record with field1 := l, field2 := r }
  | buildOr l r => { record with field1 := l, field2 := r }
  | buildNot n => { record with field3 := n }

end Call

/-- The call that a compound node is made for. -/
def NodeRecord.call (record : NodeRecord) : Option Call :=
  match record.kind with
  | .andBool => some (.buildAnd record.field1 record.field2)
  | .orBool => some (.buildOr record.field1 record.field2)
  | .notBool => some (.buildNot record.field3)
  | _ => none

theorem Call.perform_eq (s : State) (call : Call) (plain : call.simplify s = none) : ∃ same : NodeRecord → Bool,
      call.perform s = hashNode s call.kind (call.hash s) same (fun record => call.fill record) ∧
      ∀ record : NodeRecord, (record.kind = call.kind ∧ same record = true) ↔ record.call = some call := by
  cases call with
  | buildAnd l r =>
    refine ⟨fun record => record.field1 = l && record.field2 = r, ?_, fun record => ?_⟩
    · simp only [perform, buildBoolAnd, show simplifyAnd s l r = none from plain]
      rfl
    · cases same : record.kind <;> simp [NodeRecord.call, same, Call.kind]
  | buildOr l r =>
    refine ⟨fun record => record.field1 = l && record.field2 = r, ?_, fun record => ?_⟩
    · simp only [perform, buildBoolOr, show simplifyOr s l r = none from plain]
      rfl
    · cases same : record.kind <;> simp [NodeRecord.call, same, Call.kind]
  | buildNot n =>
    refine ⟨fun record => record.field3 = n, ?_, fun record => ?_⟩
    · simp only [perform, buildBoolNot, show simplifyNot s n = none from plain]
      rfl
    · cases same : record.kind <;> simp [NodeRecord.call, same, Call.kind]

theorem Call.perform_simplified {s : State} {call : Call} {n : Nat} (simple : call.simplify s = some n) :
    call.perform s = some (n, s) := by
  cases call <;> simp only [simplify] at simple <;>
    simp only [perform, buildBoolAnd, buildBoolOr, buildBoolNot, simple]

end Ghdl.Psl.Cse
