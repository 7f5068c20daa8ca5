import Mathlib.Logic.Basic

/-!
# Boolean nodes of PSL

The boolean expressions on the edges of an automaton, and the constructors of `psl-cse` that build them.
A node is told from another one by its number in the source. The nodes that `psl-cse` builds are shared
through its hash table, two of them with the same operands are one node; the nodes of the parser are not
in the table, and each has an origin of its own. Equality of `BoolNode` is therefore equality of nodes.
-/

namespace Ghdl.Psl

/-- The nodes of kind `N_Not_Bool .. N_True` and `N_EOS`. A compound node has no origin when `psl-cse` built
it. -/
inductive BoolNode where
  /-- `N_HDL_Expr`: an expression of the design. -/
  | hdlExpr (expr : Nat)
  /-- `N_EOS`: the end of the simulation. -/
  | eos
  /-- `N_True`. -/
  | trueNode
  /-- `N_False`. -/
  | falseNode
  /-- `N_Not_Bool`. -/
  | notBool (origin : Option Nat) (boolean : BoolNode)
  /-- `N_And_Bool`. -/
  | andBool (origin : Option Nat) (left right : BoolNode)
  /-- `N_Or_Bool`. -/
  | orBool (origin : Option Nat) (left right : BoolNode)
  /-- `N_Imp_Bool`. -/
  | impBool (origin : Option Nat) (left right : BoolNode)
deriving DecidableEq, Repr

/-- A value for each expression of the design and for the end of the simulation. It is one letter of the
words that the automata read. -/
structure Valuation where
  hdl : Nat → Bool
  eos : Bool

namespace BoolNode

/-- The truth value of a node. -/
def eval (letter : Valuation) : BoolNode → Bool
  | hdlExpr expr => letter.hdl expr
  | eos => letter.eos
  | trueNode => true
  | falseNode => false
  | notBool _ boolean => !boolean.eval letter
  | andBool _ left right => left.eval letter && right.eval letter
  | orBool _ left right => left.eval letter || right.eval letter
  | impBool _ left right => !left.eval letter || right.eval letter

variable {letter : Valuation} {a b left right : BoolNode}

@[simp] theorem eval_true : trueNode.eval letter = true := rfl

@[simp] theorem eval_false : falseNode.eval letter = false := rfl

section

variable (origin : Option Nat)
include origin

@[simp] theorem eval_not : (notBool origin a).eval letter = !a.eval letter := rfl

@[simp] theorem eval_and :
    (andBool origin left right).eval letter = (left.eval letter && right.eval letter) := rfl

@[simp] theorem eval_or :
    (orBool origin left right).eval letter = (left.eval letter || right.eval letter) := rfl

@[simp] theorem eval_imp :
    (impBool origin left right).eval letter = (!left.eval letter || right.eval letter) := rfl

end

/-- `N_Not_Bool` of a given node. -/
def IsNotOf (a b : BoolNode) : Prop :=
  match a with
  | notBool _ boolean => boolean = b
  | _ => False

instance : DecidableRel IsNotOf := fun a b => by
  cases a <;> unfold IsNotOf <;> infer_instance

theorem IsNotOf.eval (letter : Valuation) (negation : IsNotOf a b) : a.eval letter = !b.eval letter := by
  cases a with
  | notBool origin boolean =>
    have same : boolean = b := negation
    rw [eval_not, same]
  | _ => exact negation.elim

/-- `Is_X_And_Not_X`. -/
def IsXAndNotX (a b : BoolNode) : Prop := IsNotOf a b ∨ IsNotOf b a

instance : DecidableRel IsXAndNotX := fun _ _ => inferInstanceAs (Decidable (_ ∨ _))

theorem IsXAndNotX.eval (letter : Valuation) (opposite : IsXAndNotX a b) : a.eval letter = !b.eval letter := by
  rcases opposite with negation | negation
  · exact negation.eval letter
  · rw [negation.eval letter, Bool.not_not]

end BoolNode

open BoolNode

/-- `Build_Bool_And`. -/
def buildBoolAnd (l r : BoolNode) : BoolNode :=
  if l = trueNode then r
  else if r = trueNode then l
  else if l = falseNode ∨ r = falseNode then falseNode
  else if l = r then l
  else if IsXAndNotX l r then falseNode
  else
    -- "More simple optimizations", on the left operand of a conjunction.
    match r with
    | andBool _ r1 _ =>
      if l = r1 then r
      else if IsXAndNotX l r1 then falseNode
      else andBool none l r
    | _ => andBool none l r

/-- `Build_Bool_Or`. -/
def buildBoolOr (l r : BoolNode) : BoolNode :=
  if l = trueNode then l
  else if r = trueNode then r
  else if l = falseNode then r
  else if r = falseNode then l
  else if l = r then l
  else if IsXAndNotX l r then trueNode
  else orBool none l r

/-- `Build_Bool_Not`. -/
def buildBoolNot (n : BoolNode) : BoolNode :=
  match n with
  | trueNode => falseNode
  | falseNode => trueNode
  | notBool _ boolean => boolean
  | _ => notBool none n

variable (letter : Valuation) (l r n : BoolNode)

@[simp] theorem eval_buildBoolAnd : (buildBoolAnd l r).eval letter = (l.eval letter && r.eval letter) := by
  unfold buildBoolAnd
  split
  · next same => simp [same]
  split
  · next same => simp [same]
  split
  · next constant =>
    rcases constant with same | same
    · simp [same]
    · simp [same]
  split
  · next same => simp [same]
  split
  · next opposite => simp [opposite.eval letter]
  split
  · split
    · next same => simp [same]
    split
    · next opposite => simp +contextual [opposite.eval letter]
    · rfl
  · rfl

@[simp] theorem eval_buildBoolOr :
    (buildBoolOr l r).eval letter = (l.eval letter || r.eval letter) := by
  unfold buildBoolOr
  split
  · next same => simp [same]
  split
  · next same => simp [same]
  split
  · next same => simp [same]
  split
  · next same => simp [same]
  split
  · next same => simp [same]
  split
  · next opposite => simp [opposite.eval letter]
  · rfl

@[simp] theorem eval_buildBoolNot : (buildBoolNot n).eval letter = !n.eval letter := by
  cases n <;> simp [buildBoolNot]

end Ghdl.Psl
