import Ghdl.Text.Images

/-!
# Values of strings

The parsers of `grt-values`: the blanks around a string are skipped, a literal or a unit is matched with the
names of its type, and a number accumulates negatively so that the least value fits.
-/

namespace Ghdl.Text

/-- `Std_String_Basep`: what is behind the last character is not known. -/
abbrev StringBase := Nat → Char

/-- The message of an error of `'value`. -/
abbrev Outcome := Except String

/-- `Is_Whitespace`. -/
def isWhitespace (c : Char) : Bool := c = ' ' || c = Char.ofNat 160 || c = Char.ofNat 9

/-- `To_Lower`. -/
def toLower (c : Char) : Char := if 'A' ≤ c ∧ c ≤ 'Z' then Char.ofNat (c.toNat + 32) else c

/-- The first loop of `Remove_Whitespaces`, for at most COUNT characters. -/
def skipLeading (s : StringBase) : Nat → Nat → Nat
  | 0, pos => pos
  | count + 1, pos => if isWhitespace (s pos) then skipLeading s count (pos + 1) else pos

/-- The second loop of `Remove_Whitespaces`: the new length. -/
def skipTrailing (s : StringBase) (pos : Nat) : Nat → Nat
  | 0 => 0
  | len + 1 => if pos < len + 1 ∧ isWhitespace (s len) then skipTrailing s pos len else len + 1

/-- `Remove_Whitespaces`: the new length and position. -/
def removeWhitespaces (s : StringBase) (len pos : Nat) : Outcome (Nat × Nat) :=
  let pos := skipLeading s (len - pos) pos
  let len := skipTrailing s pos len
  if pos = len then .error "'value: empty string" else .ok (len, pos)

/-- The loop of `String_Match`: the characters from POS on, at most COUNT before the end. -/
def matchLoop (s : StringBase) (isChar : Bool) : Nat → Nat → CString → Bool
  | 0, _, ref => ref = []
  | _ + 1, _, [] => false
  | count + 1, pos, r :: ref =>
    let c := if isChar then s pos else toLower (s pos)
    if c ≠ r then false else matchLoop s isChar count (pos + 1) ref

/-- `String_Match`. -/
def stringMatch (s : StringBase) (pos len : Nat) (ref : CString) : Bool :=
  matchLoop s (s pos = '\'') (len - pos) pos ref

/-- `Value_Enum`. -/
def valueEnum (s : StringBase) (len : Nat) (t : EnumType) : Outcome Nat := do
  let (len, pos) ← removeWhitespaces s len 0
  match t.names.findIdx? (stringMatch s pos len) with
  | some i => return i
  | none =>
    .error ("'value: '" ++ String.ofList ((List.range' pos (len - pos)).map s) ++ "' not in enumeration '" ++
      String.ofList t.name ++ "'")

/-- A decimal digit. -/
def isDigit (c : Char) : Bool := '0' ≤ c && c ≤ '9'

/-- The position of a digit. -/
def digit (c : Char) : Int := (c.toNat : Int) - '0'.toNat

/-- The loop of `Value_I64` that reads decimal digits, for the integer and for the exponent: STEP accumulates
a digit and STOPS says at which characters the loop ends. The result has the position and the character of
the end. -/
def digitsLoop (s : StringBase) (len : Nat) (step : Int → Int → Int) (stops : Char → Bool) :
    Nat → Nat → Char → Int → Outcome (Nat × Char × Int)
  | 0, _, _, _ => .error "'value: decimal digit expected"
  | fuel + 1, pos, c, val =>
    if isDigit c then
      let val := step val (digit c)
      let pos := pos + 1
      if len ≤ pos then .ok (pos, c, val)
      else
        let c := s pos
        if c = '_' then
          if len ≤ pos + 1 then .error "'value: trailing underscore"
          else digitsLoop s len step stops fuel (pos + 1) (s (pos + 1)) val
        else if stops c then .ok (pos, c, val)
        else if isWhitespace c then .ok (pos + 1, c, val)
        else digitsLoop s len step stops fuel pos c val
    else .error "'value: decimal digit expected"

/-- The value of a digit of a based literal. -/
def basedDigit (c : Char) : Option Int :=
  if '0' ≤ c ∧ c ≤ '9' then some (digit c)
  else if 'a' ≤ c ∧ c ≤ 'f' then some ((c.toNat : Int) - 'a'.toNat + 10)
  else if 'A' ≤ c ∧ c ≤ 'F' then some ((c.toNat : Int) - 'A'.toNat + 10)
  else none

/-- The loop of `Value_I64` that reads based digits up to the closing separator. -/
def basedLoop (s : StringBase) (len : Nat) (base : Int) (sep : Char) :
    Nat → Nat → Char → Int → Outcome (Nat × Char × Int)
  | 0, _, _, _ => .error "'value: digit expected"
  | fuel + 1, pos, c, val => do
    let d ← match basedDigit c with
      | none => .error "'value: digit expected"
      | some d => .ok d
    if base ≤ d then .error "'value: digit >= base"
    else
      let val := wrap 64 (wrap 64 (val * base) - d)
      let pos := pos + 1
      if len ≤ pos then .error "'value: missing end sign number"
      else
        let c := s pos
        if c = '#' ∨ c = ':' then
          if c ≠ sep then .error "'value: sign number mismatch" else .ok (pos + 1, c, val)
        else if c = '_' then
          if len ≤ pos + 1 then .error "'value: no character after underscore"
          else basedLoop s len base sep fuel (pos + 1) (s (pos + 1)) val
        else basedLoop s len base sep fuel pos c val

/-- The loop of `Value_I64` that raises to the exponent. -/
def scale : Nat → Int → Int → Int → Int
  | 0, _, _, val => val
  | fuel + 1, exp, base, val =>
    if 0 < exp then
      scale fuel (exp / 2) (wrap 64 (base * base)) (if exp % 2 = 1 then wrap 64 (val * base) else val)
    else val

/-- The sign of `Value_I64`: whether the number is negative, and where its digits start. -/
def valueSign (s : StringBase) (len pos : Nat) : Outcome (Bool × Nat) :=
  if s pos = '+' ∨ s pos = '-' then
    if pos = len then .error "'value: missing digit after +/-" else .ok (s pos = '-', pos + 1)
  else .ok (false, pos)

/-- The based literal of `Value_I64`, from its separator on: the base, the position, the character and the value. -/
def valueBased (s : StringBase) (len pos : Nat) (sep : Char) (val : Int) : Outcome (Int × Nat × Char × Int) := do
  let base := wrap 64 (-val)
  if base < 2 ∨ 16 < base then .error "'value: bad base"
  else if len ≤ pos + 1 then .error "'value: missing based integer"
  else
    let (pos, c, val) ← basedLoop s len base sep len (pos + 1) (s (pos + 1)) 0
    return (base, pos, c, val)

/-- The exponent of `Value_I64`, from its letter on: the position and the value. -/
def valueExponent (s : StringBase) (len pos : Nat) (base val : Int) : Outcome (Nat × Int) := do
  if len ≤ pos + 1 then .error "'value: no character after exponent"
  else
    let pos ←
      if s (pos + 1) = '+' then
        if len ≤ pos + 2 then .error "'value: no character after sign" else .ok (pos + 2)
      else if s (pos + 1) = '-' then .error "'value: negativ exponent not allowed"
      else .ok (pos + 1)
    let (pos, _, exp) ←
      digitsLoop s len (fun exp d => wrap 32 (wrap 32 (exp * 10) + d)) (fun _ => false) len pos (s pos) 0
    return (pos, scale 32 exp base val)

/-- The digits of `Value_I64` accumulate negatively. -/
def accumulate (val d : Int) : Int := wrap 64 (wrap 64 (val * 10) - d)

/-- `Value_I64`. -/
def valueI64 (s : StringBase) (len initPos : Nat) : Outcome Int := do
  let (isNeg, pos) ← valueSign s len initPos
  let (pos, c, val) ←
    digitsLoop s len accumulate (fun c => c = '#' || c = ':' || c = 'E' || c = 'e') len pos (s pos) 0
  if len ≤ pos then return if isNeg then val else wrap 64 (-val)
  else
    let (base, pos, c, val) ← if c = '#' ∨ c = ':' then valueBased s len pos c val else .ok (10, pos, c, val)
    let (pos, val) ← if c = 'e' ∨ c = 'E' then valueExponent s len pos base val else .ok (pos, val)
    if pos ≠ len then .error "'value: trailing characters after blank"
    else return if isNeg then val else wrap 64 (-val)

/-- `Ghdl_Value_I64` and `Ghdl_Value_I32`. -/
def valueInteger (kind : IntegerKind) (s : StringBase) (len : Nat) : Outcome Int := do
  let (len, pos) ← removeWhitespaces s len 0
  let val ← valueI64 s len pos
  match kind with
  | .i32 => return wrap 32 val
  | .i64 => return val

/-- What `Ghdl_Value_Physical_Split` finds. -/
structure Split where
  isReal : Bool
  litPos : Nat
  litEnd : Nat
  unitPos : Nat

/-- The loop over the literal, for at most COUNT characters. -/
def splitLiteral (s : StringBase) : Nat → Nat → Bool → Nat × Bool
  | 0, litEnd, isReal => (litEnd, isReal)
  | count + 1, litEnd, isReal =>
    if isWhitespace (s litEnd) then (litEnd, isReal)
    else splitLiteral s count (litEnd + 1) (isReal || s litEnd = '.')

/-- `Ghdl_Value_Physical_Split`. -/
def valuePhysicalSplit (s : StringBase) (len : Nat) : Outcome Split := do
  let (len, litPos) ← removeWhitespaces s len 0
  let (litEnd, isReal) := splitLiteral s (len - litPos) litPos false
  if litEnd = len then return { isReal, litPos, litEnd := 0, unitPos := litPos }
  else return { isReal, litPos, litEnd, unitPos := skipLeading s (len - (litEnd + 1)) (litEnd + 1) }

/-- `Ghdl_Value_Physical_Type`. The product of a real literal, by `Ghdl_Value_F64`, is a parameter. -/
def valuePhysicalType (real : StringBase → Nat → Nat → Int → Outcome Int) (s : StringBase) (len : Nat)
    (t : PhysicalType) : Outcome Int := do
  let (unitLen, _) ← removeWhitespaces s len 0
  let split ← valuePhysicalSplit s len
  match t.units.find? fun u => stringMatch s split.unitPos unitLen u.name with
  | none =>
    .error ("'value: unit '" ++
      String.ofList ((List.range' split.unitPos (unitLen - split.unitPos)).map s) ++
      "' not in physical type '" ++ String.ofList t.name ++ "'")
  | some multiple =>
    if split.litEnd = 0 then return multiple.value
    else if split.isReal then real s split.litEnd split.litPos multiple.value
    else
      let lit ← valueI64 s split.litEnd split.litPos
      return wrap 64 (lit * multiple.value)

/-- `Ghdl_Value_P64` and `Ghdl_Value_P32`. -/
def valuePhysical (real : StringBase → Nat → Nat → Int → Outcome Int) (s : StringBase) (len : Nat)
    (t : PhysicalType) : Outcome Int := do
  let val ← valuePhysicalType real s len t
  match t.kind with
  | .p32 => return wrap 32 val
  | .p64 => return val

end Ghdl.Text
