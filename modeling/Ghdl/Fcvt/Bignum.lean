import Ghdl.System.Fallible
import Mathlib.Data.List.DropRight
import Mathlib.Data.Nat.Digits.Lemmas

/-!
# Numbers of many digits

`Grt.Fcvt`: the ad-hoc numbers that support radix conversion. A `Bignum` holds up to 37 digits of 32
bits, the least significant first; the highest one must not be 0. The loops of the code go through the
digits in that order with a 64-bit sum, whose high half is the carry.
-/

namespace Ghdl.Fcvt

open Fallible

/-- The ways a call of `Grt.Fcvt` ends without returning. -/
inductive FcvtError where
  /-- A digit outside of the array of a number is written or read. -/
  | indexCheck
  /-- A `pragma Assert` fails. -/
  | assertion
  deriving DecidableEq, Repr

/-- `Bignum`: the digits `V (1 .. N)`. -/
structure Bignum where
  /-- The digits, the least significant first. -/
  v : List UInt32
  deriving DecidableEq, Repr

/-- `Unsigned_32 (Tmp and 16#ffff_ffff#)`. -/
def lowDigit (tmp : UInt64) : UInt32 := (tmp &&& 0xffffffff).toUInt32

/-- `Shift_Right_Arithmetic (Tmp, 32)`. -/
def shiftBorrow (tmp : UInt64) : UInt64 := ⟨tmp.toBitVec.sshiftRight 32⟩

namespace Bignum

/-- `N`. -/
def n (bn : Bignum) : Nat := bn.v.length

/-- `Bn.V'Last`. -/
def last : Nat := 37

/-- `Bignum_Is_Valid`: the invariant within a number. -/
def isValid (bn : Bignum) : Bool := bn.n ≤ last && bn.v.getLast? ≠ some 0

/-- `Res.V (Res.N + 1) := Digit; Res.N := Res.N + 1`. -/
def push (bn : Bignum) (digit : UInt32) : Except FcvtError Bignum :=
  if bn.n < last then .ok ⟨bn.v ++ [digit]⟩ else .error .indexCheck

/-- What is left in `Tmp` after the last digit is one more digit, unless it is 0. -/
def pushCarry (bn : Bignum) (tmp : UInt64) : Except FcvtError Bignum :=
  if tmp ≠ 0 then bn.push tmp.toUInt32 else .ok bn

/-- `Bignum_Normalize`. -/
def normalize (bn : Bignum) : Bignum := ⟨bn.v.rdropWhile (· = 0)⟩

/-- `Bignum_Int`: a number from a natural. -/
def int (n : Nat) : Bignum := if n = 0 then ⟨[]⟩ else ⟨[n.toUInt32]⟩

/-- The loop of `Bignum_Add2`. -/
def addFrom : List UInt32 → List UInt32 → UInt64 → List UInt32 × UInt64
  | [], _, tmp => ([], tmp)
  | a :: as, [], tmp =>
    let tmp := tmp + a.toUInt64
    (lowDigit tmp :: (addFrom as [] (tmp >>> 32)).1, (addFrom as [] (tmp >>> 32)).2)
  | a :: as, b :: bs, tmp =>
    let tmp := tmp + a.toUInt64 + b.toUInt64
    (lowDigit tmp :: (addFrom as bs (tmp >>> 32)).1, (addFrom as bs (tmp >>> 32)).2)

/-- `Bignum_Add2`. -/
def add2 (a b : Bignum) : Except FcvtError Bignum :=
  if a.n < b.n then .error .assertion
  else
    let sum := addFrom a.v b.v 0
    pushCarry ⟨sum.1⟩ sum.2

/-- `Bignum_Add`. -/
def add (a b : Bignum) : Except FcvtError Bignum := if b.n ≤ a.n then add2 a b else add2 b a

/-- The loop of `Bignum_Compare`, from the highest digits on. -/
def compareFrom : List UInt32 → List UInt32 → Ordering
  | l :: ls, r :: rs => if l ≠ r then (if r < l then .gt else .lt) else compareFrom ls rs
  | _, _ => .eq

/-- `Bignum_Compare`. -/
def compare (l r : Bignum) : Ordering :=
  if l.n ≠ r.n then (if r.n < l.n then .gt else .lt) else compareFrom l.v.reverse r.v.reverse

/-- The inner loop of `Bignum_Mul`: the digit R times the digits of L is added to the digits of RES, and
the carry is put after them. -/
def mulRow (r : UInt32) : List UInt32 → List UInt32 → UInt64 → List UInt32
  | _, [], _ => []
  | [], d :: res, tmp => if tmp ≠ 0 then tmp.toUInt32 :: res else d :: res
  | l :: ls, d :: res, tmp =>
    let tmp := tmp + r.toUInt64 * l.toUInt64 + d.toUInt64
    lowDigit tmp :: mulRow r ls res (tmp >>> 32)

/-- The outer loop of `Bignum_Mul`. A digit of RES is final once its row is done. -/
def mulRows (l : List UInt32) : List UInt32 → List UInt32 → List UInt32
  | [], res => res
  | r :: rs, res =>
    match mulRow r l res 0 with
    | [] => []
    | d :: res => d :: mulRows l rs res

/-- `Bignum_Mul`. -/
def mul (l r : Bignum) : Except FcvtError Bignum :=
  if last < l.n + r.n then .error .indexCheck
  else .ok (normalize ⟨mulRows l.v r.v (List.replicate (l.n + r.n) 0)⟩)

/-- The loop of `Bignum_Mul_Int`. -/
def mulIntFrom (r : UInt64) : List UInt32 → UInt64 → List UInt32 × UInt64
  | [], tmp => ([], tmp)
  | l :: ls, tmp =>
    let tmp := tmp + l.toUInt64 * r
    (lowDigit tmp :: (mulIntFrom r ls (tmp >>> 32)).1, (mulIntFrom r ls (tmp >>> 32)).2)

/-- `Bignum_Mul_Int`, the function and the procedure. -/
def mulInt (l : Bignum) (r : Nat) (carryIn : Nat) : Except FcvtError Bignum := do
  let product := mulIntFrom r.toUInt64 l.v carryIn.toUInt64
  let res ← pushCarry ⟨product.1⟩ product.2
  if res.isValid then .ok res else .error .assertion

/-- `Bignum_Pow2`: 2**N. -/
def pow2 (n : Nat) : Except FcvtError Bignum :=
  if last < 1 + n / 32 then .error .indexCheck
  else .ok ⟨List.replicate (n / 32) (0 : UInt32) ++ [1 <<< (n % 32).toUInt32]⟩

/-- `if N1 mod 2 = 1 then Res := Bignum_Mul (Res, T); end if`. -/
def mulOdd (n1 : Nat) (res t : Bignum) : Except FcvtError Bignum :=
  if n1 % 2 = 1 then mul res t else .ok res

/-- The loop of `Bignum_Pow`. -/
def powFrom (n1 : Nat) (res t : Bignum) : Except FcvtError Bignum := do
  let res ← mulOdd n1 res t
  if n1 / 2 = 0 then .ok res
  else
    let t ← mul t t
    powFrom (n1 / 2) res t
termination_by n1
decreasing_by omega

/-- `Bignum_Pow`: L**N. -/
def pow (l n : Nat) : Except FcvtError Bignum := powFrom n (int 1) (int l)

/-- `N.V (N.N) := Digit`, for a number of which these are the last digits. -/
def setLast (n : List UInt32) (digit : UInt32) : List UInt32 := n.dropLast ++ [digit]

/-- The loop of `Bignum_Divstep` that subtracts the digits of DIV, and the step for the last digit of a
longer number. -/
def subFrom : List UInt32 → List UInt32 → UInt64 → List UInt32 × UInt64
  | [], _, tmp => ([], tmp)
  | d :: n, [], tmp =>
    let tmp := tmp + ((d :: n).getLastD 0).toUInt64
    (setLast (d :: n) (lowDigit tmp), shiftBorrow tmp)
  | d :: n, e :: div, tmp =>
    let tmp := tmp + (d.toUInt64 - e.toUInt64)
    (lowDigit tmp :: (subFrom n div (shiftBorrow tmp)).1, (subFrom n div (shiftBorrow tmp)).2)

/-- The loop of `Bignum_Divstep` that restores the digits, and the step for the last digit of a longer
number. -/
def restoreFrom : List UInt32 → List UInt32 → UInt64 → List UInt32
  | [], _, _ => []
  | d :: n, [], tmp => setLast (d :: n) (lowDigit (tmp + ((d :: n).getLastD 0).toUInt64))
  | d :: n, e :: div, tmp =>
    let tmp := tmp + (d.toUInt64 + e.toUInt64)
    lowDigit tmp :: restoreFrom n div (shiftBorrow tmp)

/-- `Bignum_Divstep`: N less DIV when DIV is not more than N, and whether it is so. -/
def divstep (n div : Bignum) : Bignum × Bool :=
  if n.n < div.n then (n, false)
  else
    let difference := subFrom n.v div.v 0
    if difference.2 = 0 then (normalize ⟨difference.1⟩, true)
    else (⟨restoreFrom difference.1 div.v 0⟩, false)

end Bignum

end Ghdl.Fcvt
