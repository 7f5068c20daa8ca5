import Ghdl.Psl.Traces

/-!
# Rewriting of properties

`psl-rewrites`: the operators on occurrences of a boolean are rewritten to sequences.
-/

namespace Ghdl.Psl

/-- `Build_Repeat`. -/
def buildRepeat (n : Sere) (cnt : Nat) : Outcome Sere :=
  if cnt = 0 then .error .internalError
  else .ok ((List.range' 2 (cnt - 1)).foldl (fun res _ => .concat res n) n)

/-- `Rewrite_Star_Repeat_Seq` of a sequence and two bounds. -/
def rewriteStarRepeatSeq (seq : Sere) (lo hi : Nat) : Outcome Sere :=
  if hi < lo then .error .assertion
  else if lo = hi then
    if lo = 0 then .ok .empty
    else if lo = 1 then .ok seq
    else buildRepeat seq lo
  else
    -- r[*0:n]  -->  [*0] | r;r[*0:n-1]
    let res := (List.range' (lo + 2) (hi - (lo + 1))).foldl
      (fun res _ => .or .empty (.concat seq res)) (.or .empty seq)
    if 0 < lo then do
      let first ← buildRepeat seq lo
      return .concat first res
    else .ok res

/-- `Rewrite_Goto_Repeat_Seq` of a boolean and two bounds. -/
def rewriteGotoRepeatSeq (seq : BoolNode) (lo hi : Nat) : Outcome Sere :=
  -- b[->]  -->  {(~b)[*];b}
  rewriteStarRepeatSeq (.concat (.star (.boolean (buildBoolNot seq))) (.boolean seq)) lo hi

variable {P : Type}

/-- `Rewrite_Next_Event_A`. -/
def rewriteNextEventA (b : BoolNode) (lo hi : Nat) (p : Property P) (strong : Bool) : Outcome (Property P) := do
  let res ← rewriteGotoRepeatSeq b lo hi
  let res := Property.overlapImpSeq res p
  if strong then do
    let existing ← rewriteGotoRepeatSeq b lo lo
    return .andProp res (.strong existing)
  else return res

/-- `Rewrite_Before`, of the booleans that `Rewrite_Boolean` returns. -/
def rewriteBefore (b1 b2 : BoolNode) (inclusive strong : Bool) : Property P :=
  let nB2 := buildBoolNot b2
  let res := Sere.star (.boolean (buildBoolAnd (buildBoolNot b1) nB2))
  let r := if inclusive then b2 else buildBoolAnd b1 nB2
  let res := Sere.concat res (.boolean r)
  if strong then .strong res else .sere res

end Ghdl.Psl
