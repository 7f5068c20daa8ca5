import Ghdl.Psl.Occurrences

/-!
# Sequences of the source

The sequential expressions that the parser makes, their words, and `Rewrite_SERE`, which rewrites them to those that
`Build_SERE_FA` knows. The parser has no node for the bound `inf` and leaves the upper bound out, as it does for a
repetition with one bound.
-/

namespace Ghdl.Psl

open scoped Computability

/-- The range of a repetition. -/
inductive SereRange where
  /-- `n`. -/
  | exactly (n : Nat)
  /-- `lo to hi`. -/
  | between (lo hi : Nat)
  /-- `lo to inf`. -/
  | atLeast (lo : Nat)
deriving DecidableEq, Repr

/-- The bounds of a repetition in its node: `Low_Bound`, and `High_Bound` when there is one. -/
structure NodeBounds where
  lo : Nat
  hi : Option Nat
deriving DecidableEq, Repr

namespace SereRange

/-- `Parse_Count`. -/
def parseCount : SereRange → NodeBounds
  | exactly n => { lo := n, hi := none }
  | between lo hi => { lo, hi := some hi }
  -- "FIXME: create node".
  | atLeast lo => { lo, hi := none }

/-- The numbers in the range. -/
def Allows : SereRange → Nat → Prop
  | exactly n, k => k = n
  | between lo hi, k => lo ≤ k ∧ k ≤ hi
  | atLeast lo, k => lo ≤ k

/-- The lower bound is not above the upper one. -/
def Ordered : SereRange → Prop
  | between lo hi => lo ≤ hi
  | exactly _ | atLeast _ => True

/-- The range as its bounds are read: without an upper bound there is one number only. -/
def asRead : SereRange → SereRange
  | exactly n => exactly n
  | between lo hi => between lo hi
  | atLeast lo => exactly lo

end SereRange

/-- The sequential expressions before they are rewritten, for a type of ranges. -/
inductive SourceSere (R : Type) where
  | boolean (b : BoolNode)
  | braced (sere : SourceSere R)
  | concat (left right : SourceSere R)
  | fusion (left right : SourceSere R)
  | within (left right : SourceSere R)
  | matchAnd (left right : SourceSere R)
  | and (left right : SourceSere R)
  | or (left right : SourceSere R)
  /-- `s[*]`, with or without a range. -/
  | star (range : Option R) (sere : SourceSere R)
  /-- `[*]` without a sequence. -/
  | anyStar (range : Option R)
  /-- `s[+]`. -/
  | plus (sere : SourceSere R)
  /-- `[+]`. -/
  | anyPlus
  /-- `b[->]`. -/
  | goto (range : Option R) (b : BoolNode)
  /-- `b[=]`. -/
  | equal (range : R) (b : BoolNode)
deriving DecidableEq, Repr

namespace SourceSere

/-- The ranges are replaced. -/
def map {R S : Type} (f : R → S) : SourceSere R → SourceSere S
  | boolean b => boolean b
  | braced sere => braced (sere.map f)
  | concat left right => concat (left.map f) (right.map f)
  | fusion left right => fusion (left.map f) (right.map f)
  | within left right => within (left.map f) (right.map f)
  | matchAnd left right => matchAnd (left.map f) (right.map f)
  | and left right => and (left.map f) (right.map f)
  | or left right => or (left.map f) (right.map f)
  | star range sere => star (range.map f) (sere.map f)
  | anyStar range => anyStar (range.map f)
  | plus sere => plus (sere.map f)
  | anyPlus => anyPlus
  | goto range b => goto (range.map f) b
  | equal range b => equal (f range) b

/-- The words of the sequence. -/
def language : SourceSere SereRange → Language Valuation
  | boolean b => {w | ∃ letter, w = [letter] ∧ b.eval letter = true}
  | braced sere => sere.language
  | concat left right => left.language * right.language
  | fusion left right => {w | ∃ u x v, w = u ++ x :: v ∧ u ++ [x] ∈ left.language ∧ x :: v ∈ right.language}
  | within left right => {w | w ∈ right.language ∧ ∃ u v x, w = u ++ v ++ x ∧ v ∈ left.language}
  | matchAnd left right => left.language ⊓ right.language
  | and left right =>
    {w | (w ∈ left.language ∧ ∃ u, u <+: w ∧ u ∈ right.language) ∨
      (w ∈ right.language ∧ ∃ u, u <+: w ∧ u ∈ left.language)}
  | or left right => left.language + right.language
  | star none sere => sere.language∗
  | star (some range) sere => {w | ∃ k, range.Allows k ∧ w ∈ sere.language ^ k}
  | anyStar none => Set.univ
  | anyStar (some range) => {w | range.Allows w.length}
  | plus sere => sere.language * sere.language∗
  | anyPlus => {w | w ≠ []}
  | goto none b => {w | occurrences b w = 1 ∧ ∀ letter ∈ w.getLast?, b.eval letter = true}
  | goto (some range) b =>
    {w | range.Allows (occurrences b w) ∧ ∀ letter ∈ w.getLast?, b.eval letter = true}
  | equal range b => {w | range.Allows (occurrences b w)}

/-- The lower bounds are not above the upper ones. -/
def Ordered : SourceSere SereRange → Prop
  | boolean _ | anyPlus => True
  | braced sere | plus sere => sere.Ordered
  | concat left right | fusion left right | within left right | matchAnd left right | and left right
  | or left right => left.Ordered ∧ right.Ordered
  | star range sere => (∀ r ∈ range, r.Ordered) ∧ sere.Ordered
  | anyStar range | goto range _ => ∀ r ∈ range, r.Ordered
  | equal range _ => range.Ordered

end SourceSere

/-- The nodes of which the parser makes booleans: expressions of the design and operations on them. -/
def BoolNode.Parsed : BoolNode → Prop
  | hdlExpr _ => True
  | notBool _ boolean => boolean.Parsed
  | andBool _ left right | orBool _ left right | impBool _ left right => left.Parsed ∧ right.Parsed
  | trueNode | falseNode | eos => False

/-- The booleans of the sequence are such as the parser makes. -/
def SourceSere.Parsed {R : Type} : SourceSere R → Prop
  | boolean b | goto _ b | equal _ b => b.Parsed
  | braced sere | plus sere | star _ sere => sere.Parsed
  | concat left right | fusion left right | within left right | matchAnd left right | and left right
  | or left right => left.Parsed ∧ right.Parsed
  | anyStar _ | anyPlus => True

/-- `Rewrite_Boolean`. -/
def rewriteBoolean : BoolNode → Outcome BoolNode
  | .notBool origin boolean => do
    let boolean ← rewriteBoolean boolean
    return .notBool origin boolean
  | .andBool origin left right => do
    let left ← rewriteBoolean left
    let right ← rewriteBoolean right
    return .andBool origin left right
  | .orBool origin left right => do
    let left ← rewriteBoolean left
    let right ← rewriteBoolean right
    return .orBool origin left right
  | .impBool origin left right => do
    let left ← rewriteBoolean left
    let right ← rewriteBoolean right
    return .impBool origin left right
  | .hdlExpr expr => .ok (.hdlExpr expr)
  | .trueNode | .falseNode | .eos => .error .internalError

/-- `Rewrite_Star_Repeat_Seq` of a sequence and the nodes of two bounds. -/
def rewriteBounds (seq : Sere) (bounds : NodeBounds) : Outcome Sere :=
  rewriteStarRepeatSeq seq bounds.lo (bounds.hi.getD bounds.lo)

/-- `Rewrite_Star_Repeat_Seq` of a node. -/
def rewriteStar (seq : Sere) : Option NodeBounds → Outcome Sere
  -- r[*]  -->  r[*]
  | none => .ok (.star seq)
  | some bounds => rewriteBounds seq bounds

/-- `Rewrite_Goto_Repeat_Seq` of a boolean and the nodes of two bounds. -/
def rewriteGoto (seq : BoolNode) (range : Option NodeBounds) : Outcome Sere :=
  -- b[->]  -->  {(~b)[*];b}
  let res := Sere.concat (.star (.boolean (buildBoolNot seq))) (.boolean seq)
  match range with
  | none => .ok res
  -- b[->l:h]  -->  {b[->]}[*l:h]
  | some bounds => rewriteBounds res bounds

/-- `Rewrite_Within`. -/
def rewriteWithin (left right : Sere) : Sere :=
  let trueStar := Sere.star (.boolean .trueNode)
  .matchAnd (.concat (.concat trueStar left) trueStar) right

/-- `Rewrite_SERE`. -/
def rewriteSere : SourceSere NodeBounds → Outcome Sere
  | .star range sere => do
    let s ← rewriteSere sere
    rewriteStar s range
  | .anyStar range => rewriteStar (.boolean .trueNode) range
  | .plus sere => do
    let s ← rewriteSere sere
    return .plus s
  | .anyPlus => .ok (.plus (.boolean .trueNode))
  | .goto range b => do
    let b ← rewriteBoolean b
    rewriteGoto b range
  | .equal range b => do
    let b ← rewriteBoolean b
    -- b[=l:h]  -->  {b[->l:h]};(~b)[*]
    let res ← rewriteGoto b (some range)
    return .concat res (.star (.boolean (buildBoolNot b)))
  | .braced sere => rewriteSere sere
  | .within left right => do
    let l ← rewriteSere left
    let r ← rewriteSere right
    return rewriteWithin l r
  | .concat left right => do
    let l ← rewriteSere left
    let r ← rewriteSere right
    return .concat l r
  | .fusion left right => do
    let l ← rewriteSere left
    let r ← rewriteSere right
    return .fusion l r
  | .matchAnd left right => do
    let l ← rewriteSere left
    let r ← rewriteSere right
    return .matchAnd l r
  | .and left right => do
    let l ← rewriteSere left
    let r ← rewriteSere right
    return .and l r
  | .or left right => do
    let l ← rewriteSere left
    let r ← rewriteSere right
    return .or l r
  | .boolean b => do
    let b ← rewriteBoolean b
    return .boolean b

end Ghdl.Psl
