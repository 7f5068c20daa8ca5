import Ghdl.Psl.QmReduce

/-!
# Constants in boolean nodes

The booleans of a sequence have no constants in them: `Rewrite_Boolean` does not know them, and the
constructors of `psl-cse` remove the ones that rewriting adds. A node is a constant or has none, and `Reduce`
is right for such nodes.
-/

namespace Ghdl.Psl

variable {a b n l r : BoolNode}

/-- There is no constant in the node. -/
def BoolNode.Plain : BoolNode → Prop
  | .hdlExpr _ | .eos => True
  | .trueNode | .falseNode => False
  | .notBool _ boolean => boolean.Plain
  | .andBool _ left right | .orBool _ left right | .impBool _ left right => left.Plain ∧ right.Plain

/-- The node is a constant, or there is none in it. -/
def BoolNode.Tidy (n : BoolNode) : Prop := n = .trueNode ∨ n = .falseNode ∨ n.Plain

open BoolNode

theorem BoolNode.Plain.polar (plain : n.Plain) (negate : Bool) : n.Polar negate := by
  induction n generalizing negate with
  | hdlExpr expr | eos => exact trivial
  | trueNode | falseNode => exact plain.elim
  | notBool origin boolean ih => exact ih plain (!negate)
  | andBool origin left right ihl ihr | orBool origin left right ihl ihr =>
    exact ⟨ihl plain.1 negate, ihr plain.2 negate⟩
  | impBool origin left right ihl ihr => exact ⟨ihl plain.1 (!negate), ihr plain.2 negate⟩

/-- `Reduce` may be called with the node. -/
theorem BoolNode.Tidy.polar (tidy : n.Tidy) : n.Polar false := by
  rcases tidy with rfl | rfl | plain
  · exact rfl
  · exact rfl
  · exact plain.polar false

theorem BoolNode.Tidy.plain (tidy : n.Tidy) (notTrue : n ≠ .trueNode) (notFalse : n ≠ .falseNode) : n.Plain :=
  (tidy.resolve_left notTrue).resolve_left notFalse

theorem buildBoolAnd_tidy (left : l.Tidy) (right : r.Tidy) : (buildBoolAnd l r).Tidy := by
  unfold buildBoolAnd
  split
  · exact right
  next notTrueL =>
  split
  · exact left
  next notTrueR =>
  split
  · exact .inr (.inl rfl)
  next notFalse =>
  rw [not_or] at notFalse
  have plain : (andBool none l r).Plain := ⟨left.plain notTrueL notFalse.1, right.plain notTrueR notFalse.2⟩
  split
  · exact left
  split
  · exact .inr (.inl rfl)
  split
  · split
    · exact right
    split
    · exact .inr (.inl rfl)
    · exact .inr (.inr plain)
  · exact .inr (.inr plain)

theorem buildBoolOr_tidy (left : l.Tidy) (right : r.Tidy) : (buildBoolOr l r).Tidy := by
  unfold buildBoolOr
  split
  · exact left
  next notTrueL =>
  split
  · exact right
  next notTrueR =>
  split
  · exact right
  next notFalseL =>
  split
  · exact left
  next notFalseR =>
  split
  · exact left
  split
  · exact .inl rfl
  · exact .inr (.inr ⟨left.plain notTrueL notFalseL, right.plain notTrueR notFalseR⟩)

theorem buildBoolNot_tidy (tidy : n.Tidy) : (buildBoolNot n).Tidy := by
  rcases tidy with rfl | rfl | plain
  · exact .inr (.inl rfl)
  · exact .inl rfl
  · refine .inr (.inr ?_)
    cases n with
    | trueNode | falseNode => exact plain.elim
    | _ => exact plain

end Ghdl.Psl
