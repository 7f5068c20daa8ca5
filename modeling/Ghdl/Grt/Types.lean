import Mathlib.Tactic.Linarith

/-!
# Basic types of the run time

`Grt.Types`: simulation time, the values a scalar signal can hold, and the signal modes. The
run-time packages suppress every check (`pragma Suppress (All_Checks)`), so an addition of
times wraps like the machine's; `StdTime.add` is that addition on the integers a time denotes.
-/

namespace Ghdl.Grt

/-! ### Times

A `Std_Time` is a 64-bit signed number of femtoseconds; the model holds the integer it denotes. -/

namespace StdTime

/-- `Std_Time'Last`, the latest time. -/
def last : Int := 9223372036854775807

/-- `Bad_Time`, that is `Std_Time'First`: no time at all. -/
def bad : Int := -9223372036854775808

/-- `L + R` on unchecked 64-bit times. -/
def add (left right : Int) : Int := (left + right).bmod 18446744073709551616

/-- `L - R` on unchecked 64-bit times. -/
def sub (left right : Int) : Int := (left - right).bmod 18446744073709551616

theorem add_exact {left right : Int} (hl : 0 ≤ left) (hr : 0 ≤ right)
    (fits : left + right ≤ last) : add left right = left + right := by
  unfold last at fits
  exact Int.bmod_eq_of_le (by omega) (by omega)

theorem add_wrapped {left right : Int} (hl : left ≤ last) (hr : right ≤ last)
    (beyond : last < left + right) : add left right < 0 := by
  unfold last at hl hr beyond
  simp only [add, Int.bmod]
  split <;> omega

theorem sub_exact {left right : Int} (hr : 0 ≤ right) (ordered : right ≤ left)
    (fits : left ≤ last) : sub left right = left - right := by
  unfold last at fits
  exact Int.bmod_eq_of_le (by omega) (by omega)

end StdTime

/-- `Mode_Type`: the representation of a scalar value. -/
inductive ModeType where
  | b1 | e8 | e32 | i32 | i64 | f64
  deriving DecidableEq, Repr

/-- `Value_Union`: one scalar value. The union is unchecked; every value of a signal is built
with the signal's mode, so the constructor is that mode. A binary64 value is its encoding. -/
inductive ValueUnion where
  | b1 (value : Bool)
  | e8 (value : UInt8)
  | e32 (value : UInt32)
  | i32 (value : Int32)
  | i64 (value : Int64)
  | f64 (bits : UInt64)
  deriving DecidableEq, Repr

namespace ValueUnion

/-- The component `B1`. -/
def getB1 : ValueUnion → Bool
  | b1 value => value
  | _ => false

/-- The component `E8`. -/
def getE8 : ValueUnion → UInt8
  | e8 value => value
  | _ => 0

/-- The component `E32`. -/
def getE32 : ValueUnion → UInt32
  | e32 value => value
  | _ => 0

/-- The component `I32`. -/
def getI32 : ValueUnion → Int32
  | i32 value => value
  | _ => 0

/-- The component `I64`. -/
def getI64 : ValueUnion → Int64
  | i64 value => value
  | _ => 0

/-- The component `F64`, as an encoding. -/
def getF64 : ValueUnion → UInt64
  | f64 bits => bits
  | _ => 0

end ValueUnion

/-- An encoding is a NaN when its magnitude is above the infinities'. -/
def f64IsNaN (bits : UInt64) : Bool := 0x7ff0000000000000 < bits.toNat % 2 ^ 63

/-- `=` on `Ghdl_F64`: a NaN equals nothing and the two zeros are equal. -/
def f64Equal (left right : UInt64) : Bool :=
  !f64IsNaN left && !f64IsNaN right &&
    (left == right || (left.toNat % 2 ^ 63 == 0 && right.toNat % 2 ^ 63 == 0))

/-- `Value_Equal`. -/
def valueEqual (left right : ValueUnion) : ModeType → Bool
  | .b1 => left.getB1 == right.getB1
  | .e8 => left.getE8 == right.getE8
  | .e32 => left.getE32 == right.getE32
  | .i32 => left.getI32 == right.getI32
  | .i64 => left.getI64 == right.getI64
  | .f64 => f64Equal left.getF64 right.getF64

theorem f64Equal_symm {left right : UInt64} (equal : f64Equal left right = true) : f64Equal right left = true := by
  simp only [f64Equal, Bool.and_eq_true, Bool.or_eq_true, beq_iff_eq] at equal ⊢
  obtain ⟨⟨hl, hr⟩, same | zero⟩ := equal
  · exact ⟨⟨hr, hl⟩, .inl same.symm⟩
  · exact ⟨⟨hr, hl⟩, .inr zero.symm⟩

theorem f64Equal_trans {left middle right : UInt64} (first : f64Equal left middle = true)
    (second : f64Equal middle right = true) : f64Equal left right = true := by
  simp only [f64Equal, Bool.and_eq_true, Bool.or_eq_true, beq_iff_eq] at first second ⊢
  obtain ⟨⟨hl, -⟩, same | zero⟩ := first
  · exact ⟨⟨hl, second.1.2⟩, same ▸ second.2⟩
  · obtain ⟨⟨-, hr⟩, same | zero'⟩ := second
    · exact ⟨⟨hl, hr⟩, .inr ⟨zero.1, same ▸ zero.2⟩⟩
    · exact ⟨⟨hl, hr⟩, .inr ⟨zero.1, zero'.2⟩⟩

/-- `Value_Equal` is symmetric in every mode. It is not reflexive: a NaN differs from itself. -/
theorem valueEqual_symm {left right : ValueUnion} {mode : ModeType}
    (equal : valueEqual left right mode = true) : valueEqual right left mode = true := by
  cases mode <;> simp only [valueEqual, beq_iff_eq] at equal ⊢
  case f64 => exact f64Equal_symm equal
  all_goals exact equal.symm

/-- `Value_Equal` is transitive in every mode. -/
theorem valueEqual_trans {left middle right : ValueUnion} {mode : ModeType}
    (first : valueEqual left middle mode = true) (second : valueEqual middle right mode = true) :
    valueEqual left right mode = true := by
  cases mode <;> simp only [valueEqual, beq_iff_eq] at first second ⊢
  case f64 => exact f64Equal_trans first second
  all_goals exact first.trans second

/-- `Mode_Signal_Type`: how a signal is declared, or how an implicit one is computed. -/
inductive ModeSignalType where
  | modeSignal
  | modeLinkage | modeBuffer | modeOut | modeInout | modeIn
  | modeStable | modeQuiet | modeDelayed | modeTransaction | modeGuard
  | modeConvIn | modeConvOut
  | modeEnd
  deriving DecidableEq, Repr

namespace ModeSignalType

/-- `Mode_Signal_User`: signals and ports, not implicit ones. -/
def isUser : ModeSignalType → Bool
  | modeSignal | modeLinkage | modeBuffer | modeOut | modeInout | modeIn => true
  | _ => false

/-- `Mode_Signal_Implicit`. -/
def isImplicit : ModeSignalType → Bool
  | modeStable | modeQuiet | modeDelayed | modeTransaction | modeGuard => true
  | _ => false

/-- `Mode_Signal_Forward`: implicit signals with transactions of their own. -/
def isForward : ModeSignalType → Bool
  | modeStable | modeQuiet | modeDelayed => true
  | _ => false

end ModeSignalType

/-- The ways a call into the run time ends without returning. -/
inductive GrtError where
  /-- A null pointer is dereferenced; access checks are suppressed. -/
  | nullAccess
  /-- A freed cell is dereferenced. -/
  | freedAccess
  /-- `Grt.Errors.Error` with its message. -/
  | error (message : String)
  /-- `Grt.Errors.Internal_Error` with its message. -/
  | internalError (message : String)
  /-- The iteration bound of a loop's translation is used up. -/
  | loopBound
  deriving DecidableEq, Repr

end Ghdl.Grt
