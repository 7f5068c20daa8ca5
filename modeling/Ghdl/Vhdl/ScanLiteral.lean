import Ghdl.Fcvt.FromString

/-!
# The scanner of abstract literals

`Scan_Literal` starts with a simple and fast conversion, that is left for numbers of many digits at a character that
may go on with the literal, or when the next digit may not fit. The part behind the first integer is the same on both
ways. Each loop goes on along the source, so that its steps are bounded by the characters that are left.
-/

namespace Ghdl.Vhdl

open Fcvt Bignum Fallible

/-- The tokens of the literals. -/
inductive Token where
  | integer
  | real
  deriving DecidableEq, Repr

/-- The scanner: the source from `Pos` on, `Current_Token`, `Current_Context` and the messages that it gave. -/
structure Scanner where
  source : List Char
  token : Option Token
  int64 : Nat
  fp64 : Option UInt64
  messages : List String
  deriving DecidableEq, Repr

/-- How a scan ends early: `Constraint_Error`, with the scanner at that time, or a failed assertion. -/
inductive ScanExit where
  | constraintError (s : Scanner)
  | assertion
  deriving DecidableEq, Repr

/-- `Files_Map.EOT`: what is behind the end of the source. -/
def eot : Char := Char.ofNat 4

namespace Scanner

/-- `Source (Pos)`. -/
def peek (s : Scanner) : Char := s.source.headD eot

/-- `Pos := Pos + 1`. -/
def next (s : Scanner) : Scanner := { s with source := s.source.tail }

/-- `Error_Msg_Scan`. -/
def error (s : Scanner) (msg : String) : Scanner := { s with messages := s.messages ++ [msg] }

end Scanner

/-- A call of `Grt.Fcvt`: an index check raises `Constraint_Error`. -/
def checked {α : Type} (s : Scanner) : Except FcvtError α → Except ScanExit α
  | .ok a => .ok a
  | .error .indexCheck => .error (.constraintError s)
  | .error .assertion => .error .assertion

/-- An `Integer` with its overflow check; the number is not negative. -/
def integer (s : Scanner) (n : Nat) : Except ScanExit Nat :=
  if n ≤ 2147483647 then .ok n else .error (.constraintError s)

/-- `Bignum_To_Int`. -/
def toInt (n : Bignum) : UInt64 × Bool :=
  match n.v with
  | [] => (0, true)
  | [low] => (low.toUInt64, true)
  | [low, high] => (high.toUInt64 <<< 32 ||| low.toUInt64, true)
  | _ => (0, false)

/-- The loop behind an underscore. -/
def skipUnderscores (msg : String) : Nat → Scanner → Scanner
  | 0, s => s
  | fuel + 1, s => if s.next.peek ≠ '_' then s.next else skipUnderscores msg fuel (s.next.error msg)

/-- An underscore behind a digit, which must be followed by another one. -/
def afterDigit (s : Scanner) : Scanner :=
  if s.peek = '_' then
    let s := skipUnderscores "double underscore in number" s.source.length s
    if s.peek.isDigit then s else s.error "underscore must be followed by a digit"
  else s

/-- `Scan_Integer`: the first character is a digit. -/
def scanInteger : Nat → Bignum → Int → Scanner → Except ScanExit (Bignum × Int × Scanner)
  | 0, res, scale, s => .ok (res, scale, s)
  | fuel + 1, res, scale, s => do
    let res ← checked s (mulInt res 10 (digitPos s.peek))
    let s := afterDigit s.next
    if s.peek.isDigit then scanInteger fuel res (scale + 1) s else .ok (res, scale + 1, s)

/-- How the fast conversion ends. -/
inductive Fast where
  /-- The literal is a universal integer. -/
  | finished (s : Scanner)
  /-- The scan is continued with a number of many digits. -/
  | continued (res : Bignum) (s : Scanner)

/-- `Natural'Last / 10 - 1`. -/
def fastLimit : Nat := 2147483647 / 10 - 1

/-- The simple and fast conversion. -/
def fastLoop : Nat → Nat → Scanner → Except ScanExit Fast
  | 0, _, s => .ok (.finished s)
  | fuel + 1, d, s => do
    let d ← integer s (d * 10 + digitPos s.peek)
    let s := afterDigit s.next
    if ¬s.peek.isDigit then
      if s.peek = '.' ∨ s.peek = '#' ∨ s.peek = 'e' ∨ s.peek = 'E' ∨ s.peek = ':' then .ok (.continued (int d) s)
      else .ok (.finished { s with token := some .integer, int64 := d })
    else if fastLimit ≤ d then do
      let (res, _, s) ← scanInteger fuel (int d) 0 s
      .ok (.continued res s)
    else fastLoop fuel d s

/-- The base of a based literal. -/
def scanBase (res : Bignum) (s : Scanner) : Nat × Scanner :=
  let (resInt, ok) := toInt res
  if ¬ok ∨ 16 < resInt then (16, s.error "base must be at most 16")
  else if resInt < 2 then (2, s.error "base must be at least 2")
  else (resInt.toNat, s)

/-- An extended digit. -/
def extended (c : Char) : Option Nat :=
  if '0' ≤ c ∧ c ≤ '9' then some (c.toNat - '0'.toNat)
  else if 'A' ≤ c ∧ c ≤ 'F' then some (c.toNat - 'A'.toNat + 10)
  else if 'a' ≤ c ∧ c ≤ 'f' then some (c.toNat - 'a'.toNat + 10)
  else none

/-- The variables of the loop over the digits of a based literal. -/
structure Based where
  res : Bignum
  scale : Int
  hasDot : Bool
  s : Scanner
  deriving DecidableEq, Repr

/-- The loop over the digits of a based literal. -/
def basedLoop (numberSign : Char) (base : Nat) : Nat → Based → Except ScanExit Based
  | 0, b => .ok b
  | fuel + 1, b =>
    match extended b.s.peek with
    | none => .ok { b with s := b.s.error "bad extended digit" }
    | some d => do
      let (d, s) := if base ≤ d then (1, b.s.error "digit beyond base") else (d, b.s)
      let s := s.next
      let res ← checked s (mulInt b.res base d)
      let b := { b with res, scale := b.scale + 1, s }
      if s.peek = '_' then
        basedLoop numberSign base fuel
          { b with s := skipUnderscores "double underscore in based integer" s.source.length s }
      else if s.peek = '.' then
        if b.hasDot then basedLoop numberSign base fuel { b with s := (s.error "double dot ignored").next }
        else basedLoop numberSign base fuel { b with scale := 0, hasDot := true, s := s.next }
      else if s.peek = numberSign then .ok { b with s := s.next }
      else if s.peek = '#' ∨ s.peek = ':' then .ok { b with s := s.error "bad number sign replacement character" }
      else basedLoop numberSign base fuel b

/-- The loop over the digits of an exponent. -/
def exponentLoop : Nat → Nat → Scanner → Except ScanExit (Nat × Scanner)
  | 0, exp, s => .ok (exp, s)
  | fuel + 1, exp, s => do
    let exp ← integer s (exp * 10 + digitPos s.peek)
    let s := s.next
    if s.peek = '_' then
      let s := skipUnderscores "double underscore not allowed in integer" s.source.length s
      if s.peek.isDigit then exponentLoop fuel exp s else .ok (exp, s.error "digit expected after underscore")
    else if s.peek.isDigit then exponentLoop fuel exp s
    else .ok (exp, s)

/-- The sign of an exponent: whether it is negative. -/
def exponentSign (hasDot : Bool) (s : Scanner) : Bool × Scanner :=
  if s.peek = '+' then (false, s.next)
  else if s.peek = '-' then
    (hasDot, (if hasDot then s else s.error "negative exponent not allowed for integer literal").next)
  else (false, s)

/-- The exponent, if there is one. -/
def scanExponent (hasDot : Bool) (s : Scanner) : Except ScanExit (Int × Scanner) :=
  if s.peek = 'E' ∨ s.peek = 'e' then do
    let (expNeg, s) := exponentSign hasDot s.next
    if s.peek.isDigit then do
      let (exp, s) ← exponentLoop s.source.length 0 s
      .ok (if expNeg then -exp else exp, s)
    else .ok (0, s.error "digit expected after exponent")
  else .ok (0, s)

/-- `if Exp /= 0 then Res := Bignum_Mul (Res, Bignum_Pow (Base, Exp)); end if`. -/
def scaleInteger (res : Bignum) (base : Nat) (exp : Int) (s : Scanner) : Except ScanExit Bignum :=
  if exp ≠ 0 then do
    let factor ← checked s (pow base exp.toNat)
    checked s (mul res factor)
  else .ok res

/-- The token and the value of an integer literal. -/
def integerLiteral (res : Bignum) (base : Nat) (exp : Int) (s : Scanner) : Except ScanExit Scanner := do
  let s := { s with token := some .integer }
  let res ← scaleInteger res base exp s
  let (u, ok) := toInt res
  if 0x7fffffffffffffff < u then .ok (s.error "literal beyond integer bounds")
  else
    let s := { s with int64 := u.toNat }
    if ok then .ok s else .ok (s.error "literal beyond integer bounds")

/-- The token and the value of a real literal, with a bound for the steps of the division. -/
def realLiteral (fuel : Nat) (res : Bignum) (base : Nat) (exp : Int) (s : Scanner) : Except ScanExit Scanner := do
  let s := { s with token := some .real }
  let fp64 ← checked s (toFloat64 fuel false res base exp)
  .ok { s with fp64 }

/-- The exponent and the value. -/
def scanEnd (fuel : Nat) (base : Nat) (b : Based) : Except ScanExit Scanner := do
  let (exp, s) ← scanExponent b.hasDot b.s
  if b.hasDot then realLiteral fuel b.res base (exp - b.scale) s else integerLiteral b.res base exp s

/-- The colon of a based literal is followed by an extended digit. -/
def startsBased (s : Scanner) : Bool :=
  s.peek = '#' || s.peek = ':' && (extended s.next.peek).isSome

/-- `Scan_Literal` behind the first integer. -/
def scanRest (fuel : Nat) (res : Bignum) (s : Scanner) : Except ScanExit Scanner :=
  if s.peek = '.' then
    if s.next.peek.isDigit then do
      let (res, scale, s) ← scanInteger s.next.source.length res 0 s.next
      scanEnd fuel 10 { res, scale, hasDot := true, s }
    else .ok (s.next.error "a dot must be followed by a digit")
  else if startsBased s then do
    let (base, s') := scanBase res s
    let b ← basedLoop s.peek base s.next.source.length { res := int 0, scale := 0, hasDot := false, s := s'.next }
    scanEnd fuel base b
  else scanEnd fuel 10 { res, scale := 0, hasDot := false, s }

/-- The exception handler of `Scan_Literal`. -/
def handled : Except ScanExit Scanner → Except FcvtError Scanner
  | .ok s => .ok s
  | .error (.constraintError s) => .ok (s.error "literal overflow")
  | .error .assertion => .error .assertion

/-- `Scan_Literal`. -/
def scanLiteral (fuel : Nat) (s : Scanner) : Except FcvtError Scanner :=
  handled do
    match ← fastLoop s.source.length 0 s with
    | .finished s => .ok s
    | .continued res s => scanRest fuel res s

/-- The scan of a literal without the fast conversion: the first integer is a number of many digits. -/
def scanLiteralBignum (fuel : Nat) (s : Scanner) : Except FcvtError Scanner :=
  handled do
    let (res, _, s) ← scanInteger s.source.length (int 0) 0 s
    scanRest fuel res s

end Ghdl.Vhdl
