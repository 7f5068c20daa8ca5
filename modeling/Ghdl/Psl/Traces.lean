import Ghdl.Psl.Sere

/-!
# Meaning of sequences and properties

A sequence matches words of letters, and a property holds on a trace, which is finite or infinite. A weak
sequence holds when no cycle rules a match out: each beginning of the trace matches when it is followed by
letters in which everything is true.
-/

namespace Ghdl.Psl

open scoped Computability

/-- A letter of a word, or the letter in which everything is true. -/
abbrev Letter := Option Valuation

/-- The boolean is true in the letter. -/
def Letter.Meets (x : Letter) (b : BoolNode) : Prop := ∀ letter ∈ x, b.eval letter = true

/-- The words that a sequence matches. -/
def Sere.language : Sere → Language Letter
  | .boolean b => {w | ∃ x, w = [x] ∧ Letter.Meets x b}
  | .braced sere => sere.language
  | .concat left right => left.language * right.language
  | .fusion left right => {w | ∃ u x v, w = u ++ x :: v ∧ u ++ [x] ∈ left.language ∧ x :: v ∈ right.language}
  | .matchAnd left right => left.language ⊓ right.language
  | .and left right =>
    {w | (w ∈ left.language ∧ ∃ u, u <+: w ∧ u ∈ right.language) ∨
      (w ∈ right.language ∧ ∃ u, u <+: w ∧ u ∈ left.language)}
  | .or left right => left.language + right.language
  | .empty => 1
  | .star sere => sere.language∗
  | .plus sere => sere.language * sere.language∗

/-- A finite or infinite sequence of cycles. -/
structure Trace where
  length : ℕ∞
  /-- The letters of the cycles before the end of the trace. -/
  letter : Nat → Valuation

namespace Trace

/-- The boolean is true in a cycle. -/
def Meets (w : Trace) (i : Nat) (b : BoolNode) : Prop := b.eval (w.letter i) = true

/-- The letters of the cycles up to a cycle. -/
def upTo (w : Trace) (j : Nat) : List Letter := (List.range (j + 1)).map fun i => some (w.letter i)

/-- The trace from a cycle on. -/
def drop (w : Trace) (j : Nat) : Trace := { length := w.length - j, letter := fun i => w.letter (i + j) }

/-- The first letters of a trace that ends after cycle J and is followed by letters in which everything is
true. -/
def cut (w : Trace) (j m : Nat) : List Letter :=
  (List.range (m + 1)).map fun i => if i ≤ j then some (w.letter i) else none

end Trace

/-- The properties that `psl-rewrites` builds, over operands that it does not look into. -/
inductive Property (P : Type) where
  /-- An operand. -/
  | given (p : P)
  /-- A sequence. -/
  | sere (s : Sere)
  /-- `N_Strong` of a sequence. -/
  | strong (s : Sere)
  /-- `N_Overlap_Imp_Seq`. -/
  | overlapImpSeq (s : Sere) (p : Property P)
  /-- `N_And_Prop`. -/
  | andProp (left right : Property P)

namespace Property

variable {P : Type}

/-- The property holds on the trace. -/
def Holds (meaning : P → Trace → Prop) : Property P → Trace → Prop
  | given p, w => meaning p w
  | sere s, w => ∀ j : Nat, j < w.length → ∃ m, w.cut j m ∈ s.language
  | strong s, w => ∃ j : Nat, j < w.length ∧ w.upTo j ∈ s.language
  | overlapImpSeq s p, w => ∀ j : Nat, j < w.length → w.upTo j ∈ s.language → p.Holds meaning (w.drop j)
  | andProp left right, w => left.Holds meaning w ∧ right.Holds meaning w

end Property

end Ghdl.Psl
